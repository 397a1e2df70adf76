import Signet.Proofs.Curve.Standard
import Signet.Proofs.Schedule.Folding

/-!
# The coefficients row by row

The coefficients of a schedule are what its steps make of a row of numbers, one for each point: the row is doubled
from the second step on, counts the two points of each step, and is added to the total after the steps of the part
and once more at the end. A folding of points follows these rows, its row and total being their sums of points.
-/

namespace Signet.Schedule

open Curve

/-- A row of coefficients and the total of the rows that were taken. -/
structure Rows where
  row : List Nat
  total : List Nat

def increment (n j : Nat) (row : List Nat) : List Nat := row.modify j fun c => (c + 1) % n

def accumulate (n : Nat) (total row : List Nat) : List Nat := total.zipWith (fun a c => (a + c) % n) row

/-- The row after a step that takes in the points `i` and `j`. -/
def nextRow (n : Nat) (double : Bool) (i j : Nat) (row : List Nat) : List Nat :=
  increment n j (increment n i (if double then row.map fun c => 2 * c % n else row))

def Rows.step (n : Nat) (r : Rows) (double : Bool) (i j : Nat) (taken : Bool) : Rows :=
  let row := nextRow n double i j r.row
  ⟨row, if taken then accumulate n r.total row else r.total⟩

/-- The rows after the steps from `i` on. The bit of the first step is ignored. -/
def rowSteps (n : Nat) (part : List Nat) : List (Bool × Nat) → (i : Nat) → Rows → Rows
  | [], _, r => r
  | (b, j) :: steps, i, r => rowSteps n part steps (i + 1) (r.step n (decide (0 < i) && b) i j (part.contains i))

/-- The total of the rows, modulo `n`. -/
def rowCoefficients (n : Nat) (bits : List Bool) (perm part : List Nat) : List Nat :=
  let zeros := List.replicate bits.length 0
  let r := rowSteps n part (bits.zip perm) 0 ⟨zeros, zeros⟩
  accumulate n r.total r.row

theorem length_increment (n j : Nat) (row : List Nat) : (increment n j row).length = row.length := List.length_modify ..

theorem length_accumulate (n : Nat) {total row : List Nat} (h : total.length = row.length) :
    (accumulate n total row).length = row.length := by
  rw [accumulate, List.length_zipWith, h, Nat.min_self]

theorem length_nextRow (n : Nat) (double : Bool) (i j : Nat) (row : List Nat) :
    (nextRow n double i j row).length = row.length := by
  rw [nextRow, length_increment, length_increment]
  cases double <;> simp

/-! ## Sums over a row -/

section Sums

variable {C : Curve} [C.HasPrimeOrder]

def rowSum (P : Nat → C.Group) (row : List Nat) : C.Group := ∑ i ∈ Finset.range row.length, row.getD i 0 • P i

theorem rowSum_congr {P Q : Nat → C.Group} {row : List Nat} (h : ∀ i < row.length, P i = Q i) :
    rowSum P row = rowSum Q row :=
  Finset.sum_congr rfl fun i hi => by rw [h i (Finset.mem_range.mp hi)]

theorem rowSum_replicate_zero (P : Nat → C.Group) (k : Nat) : rowSum P (List.replicate k 0) = 0 := by
  refine Finset.sum_eq_zero fun i hi => ?_
  have hi' : i < k := by simpa using hi
  rw [List.getD_eq_getElem _ _ (by simpa using hi'), List.getElem_replicate, zero_nsmul]

theorem rowSum_double (P : Nat → C.Group) (row : List Nat) :
    rowSum P (row.map fun c => 2 * c % C.n) = rowSum P row + rowSum P row := by
  rw [rowSum, rowSum, ← Finset.sum_add_distrib, List.length_map]
  refine Finset.sum_congr rfl fun i hi => ?_
  have hi' : i < row.length := Finset.mem_range.mp hi
  rw [List.getD_eq_getElem _ _ (by simpa using hi'), List.getD_eq_getElem _ _ hi', List.getElem_map, mod_nsmul,
    two_mul, add_nsmul]

theorem rowSum_increment (P : Nat → C.Group) {row : List Nat} {j : Nat} (hj : j < row.length) :
    rowSum P (increment C.n j row) = rowSum P row + P j := by
  have hone : P j = ∑ i ∈ Finset.range row.length, if i = j then P i else 0 := by
    rw [Finset.sum_ite_eq' (Finset.range row.length) j, if_pos (Finset.mem_range.mpr hj)]
  rw [rowSum, rowSum, hone, ← Finset.sum_add_distrib, increment, List.length_modify]
  refine Finset.sum_congr rfl fun i hi => ?_
  have hi' : i < row.length := Finset.mem_range.mp hi
  rw [List.getD_eq_getElem _ _ (by simpa using hi'), List.getD_eq_getElem _ _ hi', List.getElem_modify]
  by_cases hij : i = j
  · rw [if_pos hij.symm, if_pos hij, mod_nsmul, add_nsmul, one_nsmul]
  · rw [if_neg (Ne.symm hij), if_neg hij, add_zero]

theorem rowSum_accumulate (P : Nat → C.Group) {total row : List Nat} (h : total.length = row.length) :
    rowSum P (accumulate C.n total row) = rowSum P total + rowSum P row := by
  rw [rowSum, rowSum, rowSum, accumulate, List.length_zipWith, h, Nat.min_self, ← Finset.sum_add_distrib]
  refine Finset.sum_congr rfl fun i hi => ?_
  have hi' : i < row.length := Finset.mem_range.mp hi
  rw [List.getD_eq_getElem _ _ (by simp [h, hi']), List.getD_eq_getElem _ _ (h ▸ hi'), List.getD_eq_getElem _ _ hi',
    List.getElem_zipWith, mod_nsmul, add_nsmul]

theorem rowSum_nextRow (P : Nat → C.Group) {row : List Nat} {i j : Nat} (hi : i < row.length) (hj : j < row.length)
    (double : Bool) :
    rowSum P (nextRow C.n double i j row)
      = (if double then rowSum P row + rowSum P row else rowSum P row) + (P i + P j) := by
  have hdoubled : (if double then row.map fun c => 2 * c % C.n else row).length = row.length := by
    cases double <;> simp
  rw [nextRow, rowSum_increment P (by rw [length_increment, hdoubled]; exact hj),
    rowSum_increment P (by rw [hdoubled]; exact hi), ← add_assoc]
  cases double <;> simp [rowSum_double]

/-- Rows that have the same sum for all points are equal. -/
theorem eq_of_rowSum_eq {row row' : List Nat} (hlen : row.length = row'.length) (hlt : ∀ c ∈ row, c < C.n)
    (hlt' : ∀ c ∈ row', c < C.n) (h : ∀ P : Nat → C.Group, rowSum P row = rowSum P row') : row = row' := by
  refine List.ext_getElem hlen fun j hj hj' => ?_
  have hsingle : ∀ row : List Nat, (hj : j < row.length) →
      rowSum (fun i => if i = j then generator C else 0) row = row[j] • generator C := by
    intro row hj
    rw [rowSum, Finset.sum_eq_single_of_mem j (Finset.mem_range.mpr hj) (by simp +contextual),
      List.getD_eq_getElem _ _ hj, if_pos rfl]
  have hj₁ := h fun i => if i = j then generator C else 0
  rw [hsingle row hj, hsingle row' hj', ← cast_smul, ← cast_smul] at hj₁
  exact Modular.eq_of_cast_eq (hlt _ (List.getElem_mem hj)) (hlt' _ (List.getElem_mem hj'))
    (smul_left_injective _ generator_ne_zero hj₁)

end Sums

/-! ## Points and rows in step -/

section Loops

variable {C : Curve} [C.HasPrimeOrder]

/-- A folding holds the sums of points that rows for `k` points count. -/
structure Follows (P : Nat → C.Group) (k : Nat) (f : Folding) (r : Rows) : Prop where
  length_row : r.row.length = k
  length_total : r.total.length = k
  row_eq : f.row = (rowSum P r.row : Point)
  total_eq : f.total = (rowSum P r.total : Point)

/-- The bit of the first step makes no difference, as the row of points is the point at infinity there. -/
theorem Follows.step {P : Nat → C.Group} {k : Nat} {f : Folding} {r : Rows} (h : Follows P k f r) {i j : Nat}
    (hi : i < k) (hj : j < k) (hfirst : i = 0 → rowSum P r.row = 0) (b taken : Bool) :
    Follows P k (f.step C b (P i) (P j) taken) (r.step C.n (decide (0 < i) && b) i j taken) := by
  obtain ⟨hlen, hlen', hrow, htotal⟩ := h
  have hdouble : (if b then rowSum P r.row + rowSum P r.row else rowSum P r.row)
      = if decide (0 < i) && b then rowSum P r.row + rowSum P r.row else rowSum P r.row := by
    by_cases h₀ : i = 0
    · simp [hfirst h₀]
    · simp [Nat.pos_of_ne_zero h₀]
  have hnext : (f.step C b (P i) (P j) taken).row
      = (rowSum P (nextRow C.n (decide (0 < i) && b) i j r.row) : Point) := by
    rw [rowSum_nextRow P (hlen.symm ▸ hi) (hlen.symm ▸ hj), ← hdouble]
    cases b <;> simp [Folding.step, hrow]
  have hcount : (nextRow C.n (decide (0 < i) && b) i j r.row).length = k := (length_nextRow ..).trans hlen
  cases taken with
  | false => exact ⟨hcount, hlen', hnext, htotal⟩
  | true =>
    have hpair : r.total.length = (nextRow C.n (decide (0 < i) && b) i j r.row).length := hlen'.trans hcount.symm
    refine ⟨hcount, (length_accumulate _ hpair).trans hcount, hnext, ?_⟩
    simp only [Rows.step, if_true, rowSum_accumulate P hpair, coe_add, ← hnext, ← htotal]
    rfl

theorem Follows.steps {s : Schedule} {points : List Point} {P : Nat → C.Group}
    (hP : ∀ i, points.getD i .infinity = (P i : Point)) {steps : List (Bool × Nat)} {i : Nat} {f : Folding} {r : Rows}
    (h : Follows P s.size f r) (hlen : i + steps.length ≤ s.size) (hsteps : ∀ t ∈ steps, t.2 < s.size)
    (hfirst : i = 0 → rowSum P r.row = 0) :
    Follows P s.size (s.foldSteps C points steps i f) (rowSteps C.n s.part steps i r) := by
  induction steps generalizing i f r with
  | nil => exact h
  | cons step steps ih =>
    obtain ⟨b, j⟩ := step
    rw [List.length_cons] at hlen
    have hj : j < s.size := hsteps (b, j) (List.mem_cons_self ..)
    have hnext := h.step (by omega) hj hfirst b (s.isTaken i)
    rw [foldSteps, rowSteps, hP, hP]
    exact ih hnext (by omega) (fun t ht => hsteps t (List.mem_cons_of_mem _ ht)) (by omega)

theorem snd_lt_of_mem_zip (s : Schedule) : ∀ t ∈ s.bits.zip s.perm, t.2 < s.size := fun _ ht =>
  s.perm_lt _ (List.of_mem_zip ht).2

theorem follows_end (s : Schedule) {points : List Point} {P : Nat → C.Group}
    (hP : ∀ i, points.getD i .infinity = (P i : Point)) :
    Follows P s.size (s.foldSteps C points (s.bits.zip s.perm) 0 ⟨.infinity, .infinity⟩)
      (rowSteps C.n s.part (s.bits.zip s.perm) 0 ⟨List.replicate s.size 0, List.replicate s.size 0⟩) := by
  have hzero : rowSum P (List.replicate s.size 0) = 0 := rowSum_replicate_zero P s.size
  have hstart : Follows P s.size ⟨.infinity, .infinity⟩ ⟨List.replicate s.size 0, List.replicate s.size 0⟩ := by
    refine ⟨List.length_replicate, List.length_replicate, ?_, ?_⟩ <;> rw [hzero, coe_zero]
  refine hstart.steps hP ?_ s.snd_lt_of_mem_zip fun _ => hzero
  simp [size, s.length_perm]

theorem fold_eq_rowSum (s : Schedule) {points : List C.Group} (hlen : points.length = s.size) :
    s.fold C (points.map Group.point)
      = .ok (rowSum (fun i => points.getD i 0) (rowCoefficients C.n s.bits s.perm s.part) : Point) := by
  have hP : ∀ i, (points.map Group.point).getD i .infinity = (points.getD i 0 : C.Group) := fun _ =>
    List.getD_map points 0 Group.point
  obtain ⟨hrow, htotal, hf, hft⟩ := s.follows_end hP
  have hsize : s.bits.length = s.size := rfl
  rw [s.fold_of_length C (by rwa [List.length_map]), rowCoefficients, hsize, rowSum_accumulate _ (htotal.trans hrow.symm),
    coe_add, ← hf, ← hft]

end Loops

/-! ## The coefficients of a schedule -/

section Coefficients

theorem ofParts_eq_ok {bits : List Bool} {perm part : List Nat} {s : Schedule} (h : ofParts bits perm part = .ok s) :
    s.bits = bits ∧ s.perm = perm ∧ s.part = part := by
  unfold ofParts at h
  split at h
  · cases h
  · split at h
    · cases h
    · split at h
      · cases h
      · cases h
        exact ⟨rfl, rfl, rfl⟩

variable (C : Curve) [C.HasPrimeOrder]

theorem length_rowCoefficients (s : Schedule) : (rowCoefficients C.n s.bits s.perm s.part).length = s.size := by
  have hnone : ∀ i, ([] : List Point).getD i .infinity = ((0 : C.Group) : Point) := fun _ => rfl
  obtain ⟨hrow, htotal, -, -⟩ := s.follows_end hnone
  exact (length_accumulate _ (htotal.trans hrow.symm)).trans hrow

theorem rowCoefficients_lt {n : Nat} (hn : 0 < n) {bits : List Bool} {perm part : List Nat} {c : Nat}
    (hc : c ∈ rowCoefficients n bits perm part) : c < n := by
  obtain ⟨i, hi, rfl⟩ := List.mem_iff_getElem.mp hc
  simp only [rowCoefficients, accumulate, List.getElem_zipWith]
  exact Nat.mod_lt _ hn

theorem coefficients_eq_rowCoefficients (s : Schedule) :
    s.coefficients C.n = rowCoefficients C.n s.bits s.perm s.part := by
  have hn : 0 < C.n := (HasPrimeOrder.prime_n (C := C)).pos
  refine eq_of_rowSum_eq (C := C) ((length_coefficients ..).trans (length_rowCoefficients C s).symm) ?_
    (fun c hc => rowCoefficients_lt hn hc) fun P => ?_
  · intro c hc
    obtain ⟨i, hi, rfl⟩ := List.mem_iff_getElem.mp hc
    rw [← List.getD_eq_getElem _ 0 hi]
    exact coefficient_lt hn s i
  · -- Both are what the fold of the same points yields.
    let points : List C.Group := (List.range s.size).map P
    have hlen : points.length = s.size := by simp [points]
    have hpoints : ∀ i < s.size, points.getD i 0 = P i := by
      intro i hi
      rw [List.getD_eq_getElem _ _ (hlen.symm ▸ hi)]
      simp [points]
    have hlen' : (points.map Group.point).length = s.size := by rw [List.length_map, hlen]
    have hfold := s.fold_eq P hlen' fun i hi => by
      rw [← hpoints i hi]
      exact List.getD_map points 0 Group.point
    rw [s.fold_eq_rowSum hlen, Except.ok.injEq, ← Curve.Group.ext_iff] at hfold
    have hrows : rowSum (fun i => points.getD i 0) (rowCoefficients C.n s.bits s.perm s.part)
        = rowSum P (rowCoefficients C.n s.bits s.perm s.part) :=
      rowSum_congr fun i hi => hpoints i (by rwa [length_rowCoefficients] at hi)
    rw [← hrows, hfold, rowSum, length_coefficients]
    rfl

/-- A schedule folds as many points as it has bits to their sum with the coefficients of its rows, and no others. -/
theorem fold_eq_sum {bits : List Bool} {perm part : List Nat} {s : Schedule} (h : ofParts bits perm part = .ok s) :
    s.coefficients p256.n = rowCoefficients p256.n bits perm part ∧
      ∀ points : List p256.Group,
        s.fold p256 (points.map Group.point)
          = if points.length = bits.length then
              .ok (∑ i ∈ Finset.range bits.length,
                (rowCoefficients p256.n bits perm part).getD i 0 • points.getD i 0 : p256.Group)
            else .error (.sizeMismatch bits.length points.length) := by
  obtain ⟨rfl, rfl, rfl⟩ := ofParts_eq_ok h
  refine ⟨coefficients_eq_rowCoefficients p256 s, fun points => ?_⟩
  have hsize : s.bits.length = s.size := rfl
  rw [hsize]
  by_cases hlen : points.length = s.size
  · rw [if_pos hlen, s.fold_eq_rowSum hlen, rowSum, length_rowCoefficients]
  · rw [if_neg hlen, fold, if_neg (by rwa [List.length_map]), List.length_map]

/-- A schedule whose second points and part have repetitions. -/
def repeated : Schedule := ⟨[true, true, false], [1, 1, 0], [2, 2, 0], by decide, rfl, by decide, by decide⟩

theorem fold_eq_sum_repeated :
    ofParts [true, true, false] [1, 1, 0] [2, 2, 0] = .ok repeated ∧
      repeated.coefficients p256.n = [7, 9, 2] ∧
      (∀ P Q R : p256.Group, repeated.fold p256 [P, Q, R] = .ok (7 • P + 9 • Q + 2 • R : p256.Group)) ∧
      ∀ P : p256.Group, repeated.fold p256 [P] = .error (.sizeMismatch 3 1) := by
  have hparts : ofParts [true, true, false] [1, 1, 0] [2, 2, 0] = .ok repeated := by decide
  have hrows : rowCoefficients p256.n [true, true, false] [1, 1, 0] [2, 2, 0] = [7, 9, 2] := by decide +kernel
  obtain ⟨hcoefficients, hfold⟩ := fold_eq_sum hparts
  rw [hrows] at hcoefficients hfold
  refine ⟨hparts, hcoefficients, fun P Q R => ?_, fun P => hfold [P]⟩
  simpa [Finset.sum_range_succ] using hfold [P, Q, R]

end Coefficients

end Signet.Schedule
