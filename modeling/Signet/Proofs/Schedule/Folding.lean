import Signet.Batch.Schedule
import Signet.Proofs.Curve.Order
import Mathlib.Data.List.GetD

/-!
# Folding is summing with coefficients

The steps of a schedule keep a row and a total. What the row contributes to the total at the end is a multiple of it,
the carry of the steps that are left. So the total is a sum of what each step takes in with the weight of the step,
and thus a sum of the points with their coefficients.
-/

namespace Signet.Schedule

open Curve

variable {C : Curve} [C.HasPrimeOrder]

def coefficient (C : Curve) (s : Schedule) (i : Nat) : Nat := (s.coefficients C.n).getD i 0

/-! ## Steps -/

/-- The total and the row, added up, after steps that start with the step `i`. -/
def sumSteps (s : Schedule) (P : Nat → C.Group) : List (Bool × Nat) → (i : Nat) → (row total : C.Group) → C.Group
  | [], _, row, total => total + row
  | (b, j) :: steps, i, row, total =>
    let row := (if b then row + row else row) + (P i + P j)
    sumSteps s P steps (i + 1) row (if s.isTaken i then total + row else total)

theorem foldSteps_eq (s : Schedule) {points : List Point} {P : Nat → C.Group}
    (hP : ∀ i, points.getD i .infinity = (P i : Point)) (steps : List (Bool × Nat)) (i : Nat) (row total : C.Group) :
    C.add (s.foldSteps C points steps i ⟨row, total⟩).total (s.foldSteps C points steps i ⟨row, total⟩).row
      = (s.sumSteps P steps i row total : C.Group) := by
  induction steps generalizing i row total with
  | nil => exact (coe_add total row).symm
  | cons step steps ih =>
    obtain ⟨b, j⟩ := step
    have hrow : C.add (if b then C.add row row else row) (C.add (P i) (P j))
        = ((if b then row + row else row) + (P i + P j) : C.Group) := by
      cases b <;> simp
    simp only [foldSteps, Folding.step, hP, hrow, sumSteps]
    rw [← ih]
    cases s.isTaken i <;> simp

/-- The bits and multiplicities of steps that start with the step `i`. -/
def rowsFrom (s : Schedule) (steps : List (Bool × Nat)) (i : Nat) : List (Bool × Nat) :=
  (steps.map Prod.fst).zip ((List.range' i steps.length).map s.multiplicity)

theorem rowsFrom_cons (s : Schedule) (b : Bool) (j : Nat) (steps : List (Bool × Nat)) (i : Nat) :
    s.rowsFrom ((b, j) :: steps) i = (b, s.multiplicity i) :: s.rowsFrom steps (i + 1) := by
  simp [rowsFrom, List.range'_succ]

/-- The weighted sum of what steps that start with the step `i` take in. -/
def weightedSum (P : Nat → C.Group) : List (Bool × Nat) → List Nat → (i : Nat) → C.Group
  | (_, j) :: steps, w :: ws, i => w • (P i + P j) + weightedSum P steps ws (i + 1)
  | _, _, _ => 0

theorem sumSteps_eq (s : Schedule) (P : Nat → C.Group) {steps : List (Bool × Nat)} {i : Nat} (hne : steps ≠ [])
    (hlen : i + steps.length = s.size) (row total : C.Group) :
    s.sumSteps P steps i row total = total
      + carry (s.rowsFrom steps i) (weights C.n (s.rowsFrom steps i)) • row
      + weightedSum P steps (weights C.n (s.rowsFrom steps i)) i := by
  induction steps generalizing i row total with
  | nil => exact absurd rfl hne
  | cons step steps ih =>
    obtain ⟨b, j⟩ := step
    rw [List.length_cons] at hlen
    -- What the row is worth at the end: the multiplicity of this step and the carry of the later ones.
    have hrest : ∀ row total : C.Group,
        s.sumSteps P steps (i + 1) row (if s.isTaken i then total + row else total) = total
          + (s.multiplicity i + carry (s.rowsFrom steps (i + 1)) (weights C.n (s.rowsFrom steps (i + 1)))) • row
          + weightedSum P steps (weights C.n (s.rowsFrom steps (i + 1))) (i + 1) := by
      intro row total
      cases steps with
      | nil =>
        have hlast : i + 1 = s.size := hlen
        cases h : s.isTaken i <;> simp [sumSteps, multiplicity, h, hlast, rowsFrom, carry, weights, weightedSum]
        abel
      | cons step steps =>
        have hlast : i + 1 ≠ s.size := by
          rw [List.length_cons] at hlen
          omega
        rw [ih (by simp) (by omega)]
        cases h : s.isTaken i <;> simp [multiplicity, h, hlast, add_nsmul]
        abel
    simp only [sumSteps, hrest, rowsFrom_cons, weights, carry, weightedSum, mod_nsmul]
    cases b with
    | false =>
      simp only [Bool.false_eq_true, if_false, mod_nsmul, nsmul_add]
      abel
    | true =>
      simp only [if_true, mul_nsmul, mod_nsmul, nsmul_add, two_nsmul]
      abel

/-! ## Coefficients -/

theorem length_weights (n : Nat) (rows : List (Bool × Nat)) : (weights n rows).length = rows.length := by
  induction rows with
  | nil => rfl
  | cons row rows ih => simp [weights, ih]

theorem length_rows (s : Schedule) : s.rows.length = s.size := by simp [rows, size]

theorem weightedSum_eq (P : Nat → C.Group) (steps : List (Bool × Nat)) (ws : List Nat) (i : Nat)
    (h : ws.length = steps.length) :
    weightedSum P steps ws i
      = ∑ t ∈ Finset.range steps.length, ws.getD t 0 • (P (i + t) + P ((steps.map Prod.snd).getD t 0)) := by
  induction steps generalizing ws i with
  | nil => simp [weightedSum]
  | cons step steps ih =>
    obtain ⟨b, j⟩ := step
    cases ws with
    | nil => simp at h
    | cons w ws =>
      rw [List.length_cons, Finset.sum_range_succ', weightedSum, ih ws (i + 1) (by simpa using h), add_comm]
      simp [Nat.add_assoc, Nat.add_comm 1]

theorem sum_filter_eq (js ws : List Nat) (j : Nat) (h : ws.length = js.length) :
    (((js.zip ws).filter fun t => t.1 == j).map (·.2)).foldr (· + ·) 0
      = ∑ t ∈ Finset.range js.length with js.getD t 0 = j, ws.getD t 0 := by
  rw [Finset.sum_filter]
  induction js generalizing ws with
  | nil => simp
  | cons k js ih =>
    cases ws with
    | nil => simp at h
    | cons w ws =>
      have hrest := ih ws (by simpa using h)
      rw [List.length_cons, Finset.sum_range_succ']
      simp only [List.getD_cons_zero, List.getD_cons_succ]
      rw [← hrest, List.zip_cons_cons]
      by_cases hk : k = j
      · rw [List.filter_cons_of_pos (by simpa using hk), if_pos hk, List.map_cons, List.foldr_cons, Nat.add_comm]
      · rw [List.filter_cons_of_neg (by simpa using hk), if_neg hk, Nat.add_zero]

omit [C.HasPrimeOrder] in
theorem coefficient_eq (s : Schedule) {j : Nat} (hj : j < s.size) :
    s.coefficient C j = ((weights C.n s.rows).getD j 0
      + ∑ t ∈ Finset.range s.size with s.perm.getD t 0 = j, (weights C.n s.rows).getD t 0) % C.n := by
  have hw : (weights C.n s.rows).length = s.size := by rw [length_weights, length_rows]
  have hp : s.perm.length = s.size := s.length_perm
  have hsum := sum_filter_eq s.perm (weights C.n s.rows) j (by omega)
  rw [hp] at hsum
  have hjw : j < (weights C.n s.rows).length := by omega
  rw [← hsum, List.getD_eq_getElem _ _ hjw, coefficient, coefficients, List.getD_eq_getElem _ _ (by simp [hj, hw])]
  simp

theorem length_coefficients (n : Nat) (s : Schedule) : (s.coefficients n).length = s.size := by
  simp [coefficients, length_weights, length_rows]

omit [C.HasPrimeOrder] in
theorem coefficient_lt (hn : 0 < C.n) (s : Schedule) (j : Nat) : s.coefficient C j < C.n := by
  by_cases hj : j < s.size
  · rw [coefficient_eq s hj]
    exact Nat.mod_lt _ hn
  · rw [coefficient, List.getD_eq_default _ _ (by rw [length_coefficients]; omega)]
    exact hn

theorem sum_steps_eq (s : Schedule) (P : Nat → C.Group) :
    ∑ t ∈ Finset.range s.size, (weights C.n s.rows).getD t 0 • (P t + P (s.perm.getD t 0))
      = ∑ j ∈ Finset.range s.size, s.coefficient C j • P j := by
  have hmaps : ∀ t ∈ Finset.range s.size, s.perm.getD t 0 ∈ Finset.range s.size := by
    intro t ht
    have htp : t < s.perm.length := by
      rw [s.length_perm]
      exact Finset.mem_range.mp ht
    rw [List.getD_eq_getElem _ _ htp, Finset.mem_range]
    exact s.perm_lt _ (List.getElem_mem htp)
  simp only [nsmul_add, Finset.sum_add_distrib]
  rw [← Finset.sum_fiberwise_of_maps_to hmaps fun t => (weights C.n s.rows).getD t 0 • P (s.perm.getD t 0),
    ← Finset.sum_add_distrib]
  refine Finset.sum_congr rfl fun j hj => ?_
  rw [coefficient_eq s (Finset.mem_range.mp hj), mod_nsmul, add_nsmul, Finset.sum_smul]
  congr 1
  refine Finset.sum_congr rfl fun t ht => ?_
  rw [(Finset.mem_filter.mp ht).2]

/-- As many points as a schedule has are folded without an error: no step asks for a point beyond the last one. -/
theorem fold_of_length (C : Curve) (s : Schedule) {points : List Point} (hlen : points.length = s.size) :
    s.fold C points = .ok (C.add (s.foldSteps C points (s.bits.zip s.perm) 0 ⟨.infinity, .infinity⟩).total
      (s.foldSteps C points (s.bits.zip s.perm) 0 ⟨.infinity, .infinity⟩).row) := by
  have hnone : (s.perm.find? fun j => decide (points.length ≤ j)) = none := by
    refine List.find?_eq_none.mpr fun j hj => ?_
    have hlt : j < s.size := s.perm_lt j hj
    simp only [decide_eq_true_eq, not_le]
    omega
  rw [fold, if_pos hlen, hnone]

/-- The total of as many points as a schedule has is their sum with the coefficients. -/
theorem fold_eq (s : Schedule) (P : Nat → C.Group) {points : List Point} (hlen : points.length = s.size)
    (hP : ∀ i < s.size, points.getD i .infinity = (P i : Point)) :
    s.fold C points = .ok ((∑ i ∈ Finset.range s.size, s.coefficient C i • P i : C.Group) : Point) := by
  -- Beyond the end of the list both sides are the point at infinity.
  let P' : Nat → C.Group := fun i => if i < s.size then P i else 0
  have hP' : ∀ i, points.getD i .infinity = (P' i : Point) := by
    intro i
    by_cases hi : i < s.size
    · rw [hP i hi]
      simp only [P', if_pos hi]
    · rw [List.getD_eq_default _ _ (by omega)]
      simp only [P', if_neg hi, coe_zero]
  have hne : s.bits.zip s.perm ≠ [] := by
    have := List.length_pos_iff.mpr s.bits_ne_nil
    rw [← List.length_pos_iff, List.length_zip, s.length_perm, Nat.min_self]
    exact this
  have hlen' : (s.bits.zip s.perm).length = s.size := by simp [size, s.length_perm]
  have hrows : s.rowsFrom (s.bits.zip s.perm) 0 = s.rows := by
    rw [rowsFrom, hlen', List.map_fst_zip (by rw [s.length_perm]), ← List.range_eq_range', rows]
  have hperm : (s.bits.zip s.perm).map Prod.snd = s.perm := List.map_snd_zip (by rw [s.length_perm])
  have hfold := s.foldSteps_eq hP' (s.bits.zip s.perm) 0 0 0
  rw [s.sumSteps_eq P' hne (by omega), hrows, smul_zero, zero_add, zero_add,
    weightedSum_eq P' _ _ 0 (by rw [length_weights, length_rows, hlen']), hlen', hperm] at hfold
  simp only [Nat.zero_add, sum_steps_eq] at hfold
  rw [s.fold_of_length C hlen]
  refine (congrArg Except.ok hfold).trans (congrArg (fun Q : C.Group => Except.ok (Q : Point)) ?_)
  refine Finset.sum_congr rfl fun i hi => ?_
  simp only [P', if_pos (Finset.mem_range.mp hi)]

end Signet.Schedule
