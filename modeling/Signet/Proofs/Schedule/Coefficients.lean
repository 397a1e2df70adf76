import Signet.Proofs.Schedule.Draw
import Signet.Proofs.Schedule.Rows
import Mathlib.Algebra.BigOperators.Intervals
import Mathlib.Algebra.Order.Ring.GeomSum

/-!
# The coefficients in closed form

The row after a step counts what the step and the ones before it took in, doubled once for each set bit that came
later. A coefficient is the sum of a column of these rows, each as often as it is added to the total, modulo the order.
Up to 253 points no such sum reaches the order of P-256, so that every coefficient is the sum itself and none is 0.
-/

namespace Signet.Schedule

open Curve

/-! ## Which schedules there are -/

theorem exists_ofParts_error_iff {bits : List Bool} {perm part : List Nat} :
    (∃ e, ofParts bits perm part = .error e) ↔
      bits = [] ∨ perm.length ≠ bits.length ∨ ∃ j ∈ perm ++ part, bits.length ≤ j := by
  constructor
  · rintro ⟨e, he⟩
    by_contra! hfits
    obtain ⟨hbits, hlen, hlt⟩ := hfits
    obtain ⟨s, hs, -⟩ := exists_ofParts hbits hlen hlt
    rw [hs] at he
    cases he
  · intro hunfit
    cases hs : ofParts bits perm part with
    | error e => exact ⟨e, rfl⟩
    | ok s =>
      obtain ⟨rfl, rfl, rfl⟩ := ofParts_eq_ok hs
      rcases hunfit with hbits | hlen | ⟨j, hj, hle⟩
      · exact absurd hbits s.bits_ne_nil
      · exact absurd s.length_perm hlen
      · rcases List.mem_append.mp hj with hj | hj
        · exact absurd (s.perm_lt j hj) (Nat.not_lt.mpr hle)
        · exact absurd (s.part_lt j hj) (Nat.not_lt.mpr hle)

/-! ## Rows and columns -/

/-- How many of the bits after the bit `t` up to the bit `i` are set. -/
def doublings (bits : List Bool) (t i : Nat) : Nat := ((Finset.Ioc t i).filter fun u => bits.getD u false).card

/-- How often the point `j` counts in the row after the step `i`. -/
def rowEntry (bits : List Bool) (perm : List Nat) (i j : Nat) : Nat :=
  ∑ t ∈ Finset.range (i + 1), ((if t = j then 1 else 0) + if perm.getD t 0 = j then 1 else 0) * 2 ^ doublings bits t i

/-- How often the point `j` counts in all rows that are added to the total: those of the part, and the last one once
more. -/
def columnSum (bits : List Bool) (perm part : List Nat) (j : Nat) : Nat :=
  ∑ i ∈ Finset.range bits.length,
    ((if i ∈ part then 1 else 0) + if i + 1 = bits.length then 1 else 0) * rowEntry bits perm i j

/-! ## Doublings -/

theorem doublings_self (bits : List Bool) (t : Nat) : doublings bits t t = 0 := by simp [doublings]

theorem doublings_cons_succ (b : Bool) (bits : List Bool) (t i : Nat) :
    doublings (b :: bits) (t + 1) (i + 1) = doublings bits t i := by
  rw [doublings, ← Finset.map_add_right_Ioc t i 1, Finset.filter_map, Finset.card_map]
  rfl

theorem doublings_eq_add (bits : List Bool) {t i : Nat} (h : t < i) :
    doublings bits t i = doublings bits (t + 1) i + if bits.getD (t + 1) false then 1 else 0 := by
  have hioc : Finset.Ioc t i = insert (t + 1) (Finset.Ioc (t + 1) i) := by
    ext u
    simp only [Finset.mem_Ioc, Finset.mem_insert]
    omega
  rw [doublings, hioc, Finset.filter_insert]
  split
  · rw [Finset.card_insert_of_notMem (by simp), doublings]
  · rfl

theorem doublings_cons_zero (b : Bool) (bits : List Bool) (i : Nat) :
    doublings (b :: bits) 0 (i + 1) = doublings bits 0 i + if bits.getD 0 false then 1 else 0 := by
  rw [doublings_eq_add _ (Nat.succ_pos i), doublings_cons_succ, List.getD_cons_succ]

theorem doublings_le (bits : List Bool) (t i : Nat) : doublings bits t i ≤ i - t := by
  refine (Finset.card_filter_le ..).trans ?_
  rw [Nat.card_Ioc]

/-! ## Weights of the steps -/

theorem carry_weights (n : Nat) (b : Bool) (m : Nat) (rows : List (Bool × Nat)) :
    carry ((b, m) :: rows) (weights n ((b, m) :: rows))
      = (weights n ((b, m) :: rows)).getD 0 0 * 2 ^ if b then 1 else 0 := by
  rw [weights, carry, List.getD_cons_zero]
  cases b with
  | false => rw [if_neg Bool.false_ne_true, if_neg Bool.false_ne_true, pow_zero, mul_one]
  | true => rw [if_pos rfl, if_pos rfl, pow_one, mul_comm]

/-- What a step takes in is added once for each time that its row or a later one is, with the doublings on the way
there. -/
theorem getD_weights (n : Nat) (rows : List (Bool × Nat)) {t : Nat} (ht : t < rows.length) :
    (weights n rows).getD t 0
      = (∑ i ∈ Finset.Ico t rows.length,
          (rows.map Prod.snd).getD i 0 * 2 ^ doublings (rows.map Prod.fst) t i) % n := by
  induction rows generalizing t with
  | nil => cases ht
  | cons row rows ih =>
    obtain ⟨b, m⟩ := row
    cases t with
    | zero =>
      rw [weights, List.getD_cons_zero, ← Finset.range_eq_Ico, List.length_cons, Finset.sum_range_succ', add_comm m]
      simp only [List.map_cons, List.getD_cons_succ, List.getD_cons_zero, doublings_cons_zero, doublings_self,
        pow_zero, mul_one, pow_add, ← mul_assoc, ← Finset.sum_mul]
      -- The later rows count for the first step as they do for the second one, up to the bit between them.
      cases rows with
      | nil => rfl
      | cons row rows =>
        have hnext := ih (t := 0) (Nat.succ_pos _)
        rw [← Finset.range_eq_Ico] at hnext
        rw [carry_weights, hnext, Nat.add_mod, Nat.mod_mul_mod, ← Nat.add_mod]
        rfl
    | succ t =>
      rw [weights, List.getD_cons_succ, ih (Nat.lt_of_succ_lt_succ ht), List.length_cons, ← Finset.sum_Ico_add']
      simp only [List.map_cons, List.getD_cons_succ, doublings_cons_succ]

theorem getD_weights_rows (n : Nat) (s : Schedule) {t : Nat} (ht : t < s.size) :
    (weights n s.rows).getD t 0
      = (∑ i ∈ Finset.Ico t s.size, s.multiplicity i * 2 ^ doublings s.bits t i) % n := by
  have hlen : s.bits.length = ((List.range s.size).map s.multiplicity).length := by simp [size]
  have hrows := s.length_rows
  rw [getD_weights n s.rows (hrows ▸ ht), hrows, rows, List.map_fst_zip hlen.le, List.map_snd_zip hlen.ge]
  congr 1
  refine Finset.sum_congr rfl fun i hi => ?_
  rw [List.getD_eq_getElem _ _ (by simpa using (Finset.mem_Ico.mp hi).2), List.getElem_map, List.getElem_range]

/-! ## The closed form -/

theorem multiplicity_eq (s : Schedule) (i : Nat) :
    s.multiplicity i = (if i ∈ s.part then 1 else 0) + if i + 1 = s.bits.length then 1 else 0 := by
  simp only [multiplicity, isTaken, List.contains_iff_mem]
  rfl

/-- Added up step by step or row by row, a column has the same sum. -/
theorem sum_steps_eq_columnSum (s : Schedule) (j : Nat) :
    ∑ t ∈ Finset.range s.size, ((if t = j then 1 else 0) + if s.perm.getD t 0 = j then 1 else 0)
        * ∑ i ∈ Finset.Ico t s.size, s.multiplicity i * 2 ^ doublings s.bits t i
      = columnSum s.bits s.perm s.part j := by
  simp only [columnSum, rowEntry, Finset.mul_sum, ← multiplicity_eq]
  have hpairs : ∀ t i, t ∈ Finset.range s.size ∧ i ∈ Finset.Ico t s.size ↔
      t ∈ Finset.range (i + 1) ∧ i ∈ Finset.range s.bits.length := by
    intro t i
    simp only [Finset.mem_range, Finset.mem_Ico, size]
    omega
  rw [Finset.sum_comm' hpairs]
  refine Finset.sum_congr rfl fun i _ => Finset.sum_congr rfl fun t _ => ?_
  rw [mul_left_comm]

theorem coefficient_eq_columnSum (C : Curve) (s : Schedule) {j : Nat} (hj : j < s.size) :
    s.coefficient C j = columnSum s.bits s.perm s.part j % C.n := by
  have hpartners : ∑ t ∈ Finset.range s.size with s.perm.getD t 0 = j, (weights C.n s.rows).getD t 0
      = ∑ t ∈ Finset.range s.size with s.perm.getD t 0 = j,
          (∑ i ∈ Finset.Ico t s.size, s.multiplicity i * 2 ^ doublings s.bits t i) % C.n := by
    refine Finset.sum_congr rfl fun t ht => ?_
    exact getD_weights_rows C.n s (Finset.mem_range.mp (Finset.mem_filter.mp ht).1)
  rw [coefficient_eq s hj, getD_weights_rows C.n s hj, hpartners, Nat.add_mod, Nat.mod_mod, ← Finset.sum_nat_mod,
    ← Nat.add_mod, ← sum_steps_eq_columnSum]
  simp only [add_mul, Finset.sum_add_distrib, ite_mul, one_mul, zero_mul, Finset.sum_ite_eq', Finset.mem_range, hj,
    if_true, Finset.sum_filter]

/-- Bits, second points and a part make a schedule unless there are none, their numbers differ or an index is too
large, and its coefficients are the sums of the columns modulo the order. -/
theorem coefficients_closed (bits : List Bool) (perm part : List Nat) :
    ((∃ e, ofParts bits perm part = .error e) ↔
      bits = [] ∨ perm.length ≠ bits.length ∨ ∃ j ∈ perm ++ part, bits.length ≤ j) ∧
    ∀ s, ofParts bits perm part = .ok s →
      s.coefficients p256.n = (List.range bits.length).map fun j => columnSum bits perm part j % p256.n := by
  refine ⟨exists_ofParts_error_iff, fun s hs => ?_⟩
  obtain ⟨rfl, rfl, rfl⟩ := ofParts_eq_ok hs
  refine List.ext_getElem (by simp [length_coefficients, size]) fun j hj _ => ?_
  have hsize : j < s.size := by rwa [length_coefficients] at hj
  rw [List.getElem_map, List.getElem_range, ← coefficient_eq_columnSum p256 s hsize, coefficient,
    List.getD_eq_getElem _ _ hj]

/-- The rows `(1, 1, 0)`, `(3, 3, 0)` and `(3, 3, 2)`, of which the first and the last one are added. -/
theorem coefficients_closed_crossed :
    ∃ s, ofParts [true, true, false] [1, 0, 2] [0] = .ok s ∧ s.coefficients p256.n = [4, 4, 2] := by
  obtain ⟨hfails, hclosed⟩ := coefficients_closed [true, true, false] [1, 0, 2] [0]
  cases hs : ofParts [true, true, false] [1, 0, 2] [0] with
  | error e => exact absurd (hfails.mp ⟨e, hs⟩) (by decide)
  | ok s =>
    refine ⟨s, rfl, (hclosed s hs).trans ?_⟩
    decide

/-! ## Sums below the order -/

theorem rowEntry_pos (bits : List Bool) (perm : List Nat) {i j : Nat} (h : j ≤ i) : 0 < rowEntry bits perm i j := by
  refine Finset.sum_pos' (fun t _ => Nat.zero_le _) ⟨j, Finset.mem_range.mpr (Nat.lt_succ_of_le h), ?_⟩
  rw [if_pos rfl]
  positivity

/-- The point of a step is taken in once, as the second point it may come up in every step. -/
theorem rowEntry_lt (bits : List Bool) (perm : List Nat) (i j : Nat) : rowEntry bits perm i j < 3 * 2 ^ i := by
  have hfirst : ∑ t ∈ Finset.range (i + 1), (if t = j then 2 ^ doublings bits t i else 0) ≤ 2 ^ i := by
    rw [Finset.sum_ite_eq']
    split
    · exact Nat.pow_le_pow_right Nat.two_pos ((doublings_le bits j i).trans (Nat.sub_le i j))
    · exact Nat.zero_le _
  have hsecond : ∑ t ∈ Finset.range (i + 1), (if perm.getD t 0 = j then 2 ^ doublings bits t i else 0)
      < 2 ^ (i + 1) := by
    calc
      _ ≤ ∑ t ∈ Finset.range (i + 1), 2 ^ (i + 1 - 1 - t) := Finset.sum_le_sum fun t _ => by
        split
        · exact Nat.pow_le_pow_right Nat.two_pos (doublings_le bits t i)
        · exact Nat.zero_le _
      _ = ∑ t ∈ Finset.range (i + 1), 2 ^ t := Finset.sum_range_reflect (fun t => 2 ^ t) (i + 1)
      _ < 2 ^ (i + 1) := Nat.geomSum_lt (le_refl 2) fun t ht => Finset.mem_range.mp ht
  simp only [rowEntry, add_mul, Finset.sum_add_distrib, ite_mul, one_mul, zero_mul]
  omega

/-- The last row counts every point. -/
theorem columnSum_pos {bits : List Bool} {j : Nat} (hj : j < bits.length) (perm part : List Nat) :
    0 < columnSum bits perm part j := by
  have hlast : bits.length - 1 + 1 = bits.length := Nat.sub_add_cancel (Nat.zero_lt_of_lt hj)
  refine Finset.sum_pos' (fun i _ => Nat.zero_le _) ⟨bits.length - 1, Finset.mem_range.mpr (by omega), ?_⟩
  rw [if_pos hlast]
  exact Nat.mul_pos (Nat.succ_pos _) (rowEntry_pos bits perm (by omega))

theorem columnSum_lt {bits : List Bool} {n : Nat} (hn : bits.length = n + 1) (perm part : List Nat) (j : Nat) :
    columnSum bits perm part j < 9 * 2 ^ n := by
  have hbefore : ∑ i ∈ Finset.range n,
      ((if i ∈ part then 1 else 0) + if i + 1 = n + 1 then 1 else 0) * rowEntry bits perm i j
        ≤ 3 * ∑ i ∈ Finset.range n, 2 ^ i := by
    rw [Finset.mul_sum]
    refine Finset.sum_le_sum fun i hi => ?_
    have hne : i + 1 ≠ n + 1 := by
      have := Finset.mem_range.mp hi
      omega
    have hrow := rowEntry_lt bits perm i j
    rw [if_neg hne]
    split <;> omega
  have hgeom : ∑ i ∈ Finset.range n, 2 ^ i < 2 ^ n := Nat.geomSum_lt (le_refl 2) fun i hi => Finset.mem_range.mp hi
  have hrow := rowEntry_lt bits perm n j
  rw [columnSum, hn, Finset.sum_range_succ, if_pos rfl]
  split <;> omega

/-- With at most 253 points no coefficient is reduced, and none is 0. -/
theorem coefficient_unreduced {bits : List Bool} {perm part : List Nat} {s : Schedule}
    (h : ofParts bits perm part = .ok s) (hn : bits.length ≤ 253) {j : Nat} (hj : j < bits.length) :
    (s.coefficients p256.n).getD j 0 = columnSum bits perm part j ∧
      0 < columnSum bits perm part j ∧ columnSum bits perm part j < p256.n := by
  obtain ⟨rfl, rfl, rfl⟩ := ofParts_eq_ok h
  obtain ⟨n, hsize⟩ : ∃ n, s.bits.length = n + 1 := Nat.exists_eq_succ_of_ne_zero (Nat.ne_zero_of_lt hj)
  have hlt : columnSum s.bits s.perm s.part j < p256.n :=
    calc
      _ < 9 * 2 ^ n := columnSum_lt hsize s.perm s.part j
      _ ≤ 9 * 2 ^ 252 := Nat.mul_le_mul_left 9 (Nat.pow_le_pow_right Nat.two_pos (by omega))
      _ < p256.n := by decide
  have heq := coefficient_eq_columnSum p256 s hj
  rw [Nat.mod_eq_of_lt hlt] at heq
  exact ⟨heq, columnSum_pos hj s.perm s.part, hlt⟩

/-- With 253 points, the first one gets the largest sum that there is if every step doubles, takes it in and is part. -/
theorem coefficient_unreduced_largest :
    ∃ s, ofParts (List.replicate 253 true) (List.replicate 253 0) (List.range 253) = .ok s ∧
      0 < (s.coefficients p256.n).getD 0 0 ∧ (s.coefficients p256.n).getD 0 0 < p256.n := by
  have hlen : (List.replicate 253 0).length = (List.replicate 253 true).length := by simp only [List.length_replicate]
  have hlt : ∀ j ∈ List.replicate 253 0 ++ List.range 253, j < (List.replicate 253 true).length := by
    intro j hj
    rw [List.length_replicate]
    rcases List.mem_append.mp hj with hj | hj
    · rw [List.eq_of_mem_replicate hj]
      decide
    · exact List.mem_range.mp hj
  have hne : List.replicate 253 true ≠ [] := List.ne_nil_of_length_pos (by rw [List.length_replicate]; decide)
  obtain ⟨s, hs, -⟩ := exists_ofParts hne hlen hlt
  obtain ⟨heq, hpos, hbelow⟩ := coefficient_unreduced hs (by rw [List.length_replicate]) (j := 0)
    (by rw [List.length_replicate]; decide)
  rw [← heq] at hpos hbelow
  exact ⟨s, hs, hpos, hbelow⟩

end Signet.Schedule
