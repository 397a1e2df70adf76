import Signet.Proofs.Batch.Chunks

/-!
# Chunks of a set

The chunks of a set follow each other from the first index to the last one, and nothing that is computed for them is
larger than the set.
-/

namespace Signet.Engine

/-! ## Ranges that follow each other -/

/-- Ranges that are not empty and follow each other, from `a` up to the end `b`. -/
inductive Tiles (b : Nat) : (a : Nat) → List (Nat × Nat) → Prop
  | nil : Tiles b b []
  | cons {a e : Nat} {ranges : List (Nat × Nat)} (hlt : a < e) (h : Tiles b e ranges) : Tiles b a ((a, e) :: ranges)

theorem Tiles.le {a b : Nat} {ranges : List (Nat × Nat)} (h : Tiles b a ranges) : a ≤ b := by
  induction h with
  | nil => exact Nat.le_refl b
  | cons hlt _ ih => exact hlt.le.trans ih

/-- The number of ranges that an index lies in. -/
def occurrences (i : Nat) (ranges : List (Nat × Nat)) : Nat := ranges.countP fun r => decide (r.1 ≤ i ∧ i < r.2)

theorem Tiles.occurrences_eq {a b : Nat} {ranges : List (Nat × Nat)} (h : Tiles b a ranges) (i : Nat) :
    occurrences i ranges = if a ≤ i ∧ i < b then 1 else 0 := by
  induction h with
  | nil => exact (if_neg fun h => Nat.not_lt.mpr h.1 h.2).symm
  | @cons a e ranges hlt h ih =>
    have hle := h.le
    rw [occurrences] at ih
    rw [occurrences, List.countP_cons, ih]
    simp only [decide_eq_true_eq]
    split_ifs <;> omega

/-! ## Chunks -/

theorem chunkRanges_max (total chunk : Nat) : chunkRanges total (max chunk 1) = chunkRanges total chunk := by
  simp only [chunkRanges, Nat.max_assoc, Nat.max_self]

/-- The chunks from the one with the number `k` on, of which all but the last one end after a full chunk. -/
theorem tiles_map_range' {total size : Nat} (hsize : 0 < size) {m k : Nat} (h : (k + m) * size < total) :
    Tiles total (k * size) ((List.range' k (m + 1)).map fun i =>
      (i * size, if i + 1 = k + m + 1 then total else (i + 1) * size)) := by
  induction m generalizing k with
  | zero =>
    rw [List.range'_one, List.map_singleton, if_pos rfl]
    exact .cons h .nil
  | succ m ih =>
    have hnext : k * size < (k + 1) * size := Nat.mul_lt_mul_of_pos_right (Nat.lt_succ_self k) hsize
    have hshift : k + (m + 1) = k + 1 + m := by omega
    rw [hshift] at h ⊢
    rw [List.range'_succ, List.map_cons, if_neg (by omega)]
    exact .cons hnext (ih h)

theorem tiles_chunkRanges (total chunk : Nat) : Tiles total 0 (chunkRanges total chunk) := by
  rcases Nat.eq_zero_or_pos total with rfl | ht
  · exact .nil
  · have hsize : 0 < max chunk 1 := Nat.le_max_right chunk 1
    obtain ⟨m, hm⟩ := Nat.exists_eq_add_of_le' (Nat.le_max_left 1 (total / max chunk 1))
    have hstart : m * max chunk 1 < total := by
      rcases Nat.eq_zero_or_pos m with rfl | hpos
      · rwa [Nat.zero_mul]
      · have hlow := Nat.div_mul_le_self total (max chunk 1)
        have hcount : total / max chunk 1 = m + 1 := by omega
        rw [hcount, Nat.succ_mul] at hlow
        omega
    have htiles := tiles_map_range' hsize (k := 0) (by rwa [Nat.zero_add])
    rw [Nat.zero_mul, Nat.zero_add, ← List.range_eq_range', ← hm] at htiles
    rwa [← chunkRanges_max, chunkRanges_eq ht hsize]

/-- The chunks of a set of at least one full chunk, with the last one apart. -/
theorem chunkRanges_eq_append {total size : Nat} (hsize : 0 < size) (h : size ≤ total) :
    chunkRanges total size = ((List.range (total / size - 1)).map fun i => (i * size, (i + 1) * size))
      ++ [((total / size - 1) * size, total)] := by
  have hcount : 0 < total / size := Nat.div_pos h hsize
  obtain ⟨m, hm⟩ := Nat.exists_eq_add_of_le' hcount
  rw [chunkRanges_eq (hsize.trans_le h) hsize, Nat.max_eq_right hcount, hm, Nat.add_sub_cancel, List.range_succ,
    List.map_append, List.map_singleton, if_pos rfl]
  refine congrArg (· ++ _) (List.map_congr_left fun i hi => ?_)
  have hi := List.mem_range.mp hi
  rw [if_neg (by omega)]

/-- The chunk ranges, computed with numbers up to a limit. -/
def chunkRangesWithin? (limit total chunk : Nat) : Option (List (Nat × Nat)) :=
  let size := max chunk 1
  let count := total / size
  if total = 0 then some []
  else if count = 0 then some [(0, total)]
  else (List.range count).mapM fun i => do
    let next ← within? limit (i + 1)
    let stop ← (if next = count then some total else within? limit (next * size))
    let start ← within? limit (i * size)
    return (start, stop)

/-- No number that is computed is larger than the number of items. -/
theorem chunkRangesWithin?_eq {limit total : Nat} (h : total ≤ limit) (chunk : Nat) :
    chunkRangesWithin? limit total chunk = some (chunkRanges total chunk) := by
  simp only [chunkRangesWithin?, chunkRanges]
  split
  · rfl
  · split
    · rfl
    · have hcount : total / max chunk 1 ≤ total := Nat.div_le_self ..
      have hlow : total / max chunk 1 * max chunk 1 ≤ total := Nat.div_mul_le_self ..
      rw [← List.map_id (List.range (total / max chunk 1)), List.map_map]
      refine mapM_map_eq_some fun i hi => ?_
      have hi : i + 1 ≤ total / max chunk 1 := List.mem_range.mp hi
      have hnext : (i + 1) * max chunk 1 ≤ total := (Nat.mul_le_mul_right _ hi).trans hlow
      have hstart : i * max chunk 1 ≤ total := (Nat.mul_le_mul_right _ (Nat.le_succ i)).trans hnext
      have hstop : (if i + 1 = total / max chunk 1 then some total else within? limit ((i + 1) * max chunk 1))
          = some (if i + 1 = total / max chunk 1 then total else (i + 1) * max chunk 1) := by
        rw [within?_of_le (hnext.trans h), apply_ite some]
      simp only [id_eq, within?_of_le (hi.trans (hcount.trans h)), within?_of_le (hstart.trans h), Option.bind_eq_bind,
        Option.bind_some, hstop, Option.pure_def]
      rfl

/-- The chunks of a set split it up: they follow each other without a gap, so that every index is in exactly one of
them. All but the last one are full chunks, the last one is less than two, and no number beyond the number of items
comes up on the way. -/
theorem chunkRanges_exact (total chunk : Nat) :
    Tiles total 0 (chunkRanges total chunk) ∧
    (∀ i < total, occurrences i (chunkRanges total chunk) = 1) ∧
    (max chunk 1 ≤ total →
      (chunkRanges total chunk).length = total / max chunk 1 ∧
      ∃ full last, chunkRanges total chunk = full ++ [last] ∧ (∀ r ∈ full, r.2 - r.1 = max chunk 1) ∧
        max chunk 1 ≤ last.2 - last.1 ∧ last.2 - last.1 ≤ 2 * max chunk 1 - 1) ∧
    (0 < total → total < max chunk 1 → chunkRanges total chunk = [(0, total)]) ∧
    chunkRangesWithin? total total chunk = some (chunkRanges total chunk) := by
  have hsize : 0 < max chunk 1 := Nat.le_max_right chunk 1
  have htiles := tiles_chunkRanges total chunk
  refine ⟨htiles, fun i hi => ?_, fun hle => ⟨?_, ?_⟩, fun ht hlt => ?_, chunkRangesWithin?_eq le_rfl chunk⟩
  · rw [htiles.occurrences_eq, if_pos ⟨Nat.zero_le i, hi⟩]
  · rw [← chunkRanges_max, length_chunkRanges (hsize.trans_le hle) hsize]
    exact Nat.max_eq_right (Nat.div_pos hle hsize)
  · have happend := chunkRanges_eq_append hsize hle
    have hlast : ((total / max chunk 1 - 1) * max chunk 1, total) ∈ chunkRanges total (max chunk 1) := by simp [happend]
    obtain ⟨-, hlow, hhigh⟩ := mem_chunkRanges hsize hle hlast
    rw [chunkRanges_max] at happend
    refine ⟨_, _, happend, fun r hr => ?_, by omega, by omega⟩
    obtain ⟨i, -, rfl⟩ := List.mem_map.mp hr
    rw [Nat.succ_mul, Nat.add_sub_cancel_left]
  · rw [← chunkRanges_max]
    exact chunkRanges_single ht (by omega)

/-- Of 149 items the second chunk of 50 takes the last 49 too. -/
theorem chunkRanges_exact_remainder :
    max 50 1 ≤ 149 ∧ chunkRanges 149 50 = [(0, 50)] ++ [(50, 149)] ∧
      (chunkRanges 149 50).length = 149 / max 50 1 ∧ 148 < 149 ∧ occurrences 148 (chunkRanges 149 50) = 1 := by
  have hle : max 50 1 ≤ 149 := by decide
  have hindex : 148 < 149 := by decide
  obtain ⟨-, hcovers, hfull, -⟩ := chunkRanges_exact 149 50
  exact ⟨hle, by decide, (hfull hle).1, hindex, hcovers 148 hindex⟩

end Signet.Engine
