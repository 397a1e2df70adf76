import Signet.Batch.Draw
import Signet.Proofs.Random.ChaCha
import Mathlib.Data.List.Sort

/-!
# Drawn schedules

What is drawn for a size fits together: the shuffled row is a permutation, and the sample has different numbers below
the size. If small words keep coming, drawing ends. It only fails to end at a bound for which it never would.
-/

namespace Signet.Schedule

open WordSource

variable {σ : Type} [WordSource σ]

theorem swapIfInBounds_perm (a : Array Nat) (i j : Nat) : (a.swapIfInBounds i j).toList.Perm a.toList := by
  rw [Array.swapIfInBounds_def]
  split
  · split
    · exact (Array.swap_perm _ _).toList
    · exact .refl _
  · exact .refl _

theorem perm_of_shuffle? {i : Nat} {a b : Array Nat} {s t : σ} (h : shuffle? i a s = some (b, t)) :
    b.toList.Perm a.toList := by
  induction i generalizing a s with
  | zero =>
    cases h
    exact .refl _
  | succ i ih =>
    rw [shuffle?] at h
    split at h
    · cases h
    · exact (ih h).trans (swapIfInBounds_perm ..)

theorem perm_of_shuffleFront? {count i : Nat} {a b : Array Nat} {s t : σ}
    (h : shuffleFront? count i a s = some (b, t)) : b.toList.Perm a.toList := by
  induction count generalizing i a s with
  | zero =>
    cases h
    exact .refl _
  | succ count ih =>
    rw [shuffleFront?] at h
    split at h
    · cases h
    · exact (ih h).trans (swapIfInBounds_perm ..)

/-- A row of `count` different numbers below `n`. -/
structure IsSample (n count : Nat) (row : List Nat) : Prop where
  nodup : row.Nodup
  lt : ∀ j ∈ row, j < n
  length_eq : row.length = count

theorem isSample_of_choose? {start count size : Nat} {chosen row : List Nat} {s t : σ}
    (hchosen : IsSample start size chosen) (h : choose? (List.range' start count) chosen s = some (row, t)) :
    IsSample (start + count) (size + count) row := by
  induction count generalizing start size chosen s with
  | zero =>
    cases h
    exact hchosen
  | succ count ih =>
    rw [List.range'_succ, choose?] at h
    split at h
    · cases h
    · next j s' hj =>
      have hle : j < start + 1 := lt_of_below? (Nat.succ_pos start) hj
      have hnew : IsSample (start + 1) (size + 1) ((if chosen.contains j then start else j) :: chosen) := by
        refine ⟨List.nodup_cons.mpr ⟨?_, hchosen.nodup⟩, fun k hk => ?_, congrArg (· + 1) hchosen.length_eq⟩
        · split
          · exact fun hmem => Nat.lt_irrefl start (hchosen.lt start hmem)
          · next hout => simpa using hout
        · rcases List.mem_cons.mp hk with rfl | hk
          · split <;> omega
          · exact Nat.lt_succ_of_lt (hchosen.lt k hk)
      have hrow := ih hnew h
      rwa [Nat.add_right_comm start, Nat.add_right_comm size] at hrow

theorem isSample_of_sample? {n count : Nat} (hle : count ≤ n) {row : List Nat} {s t : σ}
    (h : sample? n count s = some (row, t)) : IsSample n count row := by
  rw [sample?] at h
  split at h
  · obtain ⟨⟨a, s'⟩, ha, hrow⟩ := Option.map_eq_some_iff.mp h
    cases hrow
    have hperm : a.toList.Perm (List.range n) := by
      have hshuffled := perm_of_shuffleFront? ha
      rwa [Array.toList_range] at hshuffled
    refine ⟨(hperm.nodup_iff.mpr List.nodup_range).sublist (List.take_sublist ..), fun j hj => ?_, ?_⟩
    · exact List.mem_range.mp (hperm.mem_iff.mp (List.mem_of_mem_take hj))
    · rw [List.length_take, hperm.length_eq, List.length_range, Nat.min_eq_left hle]
  · have hnone : IsSample (n - count) 0 [] := ⟨.nil, List.forall_mem_nil _, rfl⟩
    have hrow := isSample_of_choose? hnone h
    rwa [Nat.sub_add_cancel hle, Nat.zero_add] at hrow

/-- The bits, the permutation and the part of a schedule of size `n`. -/
structure IsDrawn (n : Nat) (bits : List Bool) (perm part : List Nat) : Prop where
  length_bits : bits.length = n
  perm : perm.Perm (List.range n)
  increasing : part.Pairwise (· < ·)
  part_lt : ∀ j ∈ part, j < n
  length_part : ∃ p, minPart ≤ p ∧ p ≤ maxPart ∧ part.length = min p n

theorem isDrawn_of_drawParts? {n : Nat} {bits : List Bool} {perm part : List Nat} {s : σ}
    (h : drawParts? n s = some (bits, perm, part)) : IsDrawn n bits perm part := by
  simp only [drawParts?, Option.bind_eq_bind, Option.bind_eq_some_iff, Option.pure_def, Option.some.injEq,
    Prod.exists, Prod.mk.injEq] at h
  obtain ⟨a, s₁, ha, extra, s₂, hextra, row, s₃, hrow, rfl, rfl, rfl⟩ := h
  have hextra : extra < maxPart - minPart + 1 := lt_of_wideBelow? (Nat.succ_pos _) hextra
  have hsample := isSample_of_sample? (Nat.min_le_right ..) hrow
  have hperm := perm_of_shuffle? ha
  rw [Array.toList_range] at hperm
  refine ⟨length_bits n s, hperm, ?_, fun j hj => ?_, minPart + extra, ?_, ?_, ?_⟩
  · have hsorted : (row.mergeSort fun a b => decide (a ≤ b)).Pairwise (· ≤ ·) := List.pairwise_mergeSort' (· ≤ ·) row
    have hnodup := (List.mergeSort_perm row fun a b => decide (a ≤ b)).nodup_iff.mpr hsample.nodup
    exact hsorted.imp₂ (fun _ _ hab hne => Nat.lt_of_le_of_ne hab hne) hnodup
  · exact hsample.lt j (List.mem_mergeSort.mp hj)
  · exact Nat.le_add_right ..
  · simp only [minPart, maxPart] at hextra ⊢
    omega
  · rw [List.length_mergeSort, hsample.length_eq]

/-! ## The schedule -/

theorem exists_ofParts {bits : List Bool} {perm part : List Nat} (hbits : bits ≠ [])
    (hlen : perm.length = bits.length) (hlt : ∀ j ∈ perm ++ part, j < bits.length) :
    ∃ s, ofParts bits perm part = .ok s ∧ s.bits = bits ∧ s.perm = perm ∧ s.part = part := by
  have hnone : (perm ++ part).find? (fun j => decide (bits.length ≤ j)) = none := by
    refine List.find?_eq_none.mpr fun j hj => ?_
    simpa using hlt j hj
  unfold ofParts
  rw [dif_neg hbits, dif_neg (not_not_intro hlen)]
  split
  · next hsome =>
    rw [hnone] at hsome
    cases hsome
  · exact ⟨_, rfl, rfl, rfl, rfl⟩

theorem exists_ofWords {n : Nat} (hn : 0 < n) {s : σ} {bits : List Bool} {perm part : List Nat}
    (h : drawParts? n s = some (bits, perm, part)) :
    ∃ a, ofWords n s = .ok a ∧ a.bits = bits ∧ a.perm = perm ∧ a.part = part := by
  have hdrawn := isDrawn_of_drawParts? h
  rw [ofWords, if_neg hn.ne', h]
  refine exists_ofParts ?_ ?_ fun j hj => ?_
  · rw [← List.length_pos_iff, hdrawn.length_bits]
    exact hn
  · rw [hdrawn.perm.length_eq, List.length_range, hdrawn.length_bits]
  · rw [hdrawn.length_bits]
    rcases List.mem_append.mp hj with hj | hj
    · exact List.mem_range.mp (hdrawn.perm.mem_iff.mp hj)
    · exact hdrawn.part_lt j hj

/-- The drawing of a schedule from the first 32 bytes, which are there, comes to an end. -/
def Ends (n : Nat) (e : Entropy) : Prop :=
  32 ≤ e.length ∧ (drawParts? n (ChaCha.Generator.ofKey (e.take 32))).isSome

theorem Ends.exists_generate {n : Nat} {e : Entropy} (h : Ends n e) (hn : 0 < n) :
    ∃ a, generate n e = .ok (a, e.drop 32) ∧
      drawParts? n (ChaCha.Generator.ofKey (e.take 32)) = some (a.bits, a.perm, a.part) := by
  obtain ⟨⟨bits, perm, part⟩, hparts⟩ := Option.isSome_iff_exists.mp h.2
  obtain ⟨a, ha, rfl, rfl, rfl⟩ := exists_ofWords hn hparts
  refine ⟨a, ?_, hparts⟩
  rw [generate, Entropy.draw?, if_pos h.1]
  dsimp only
  rw [ha]
  rfl

theorem size_of_ofWords {n : Nat} {w : σ} {s : Schedule} (h : ofWords n w = .ok s) : s.size = n ∧ 0 < n := by
  have hn : n ≠ 0 := by
    rintro rfl
    cases h
  cases hparts : drawParts? n w with
  | none =>
    rw [ofWords, if_neg hn, hparts] at h
    cases h
  | some parts =>
    obtain ⟨bits, perm, part⟩ := parts
    have hpos := Nat.pos_of_ne_zero hn
    obtain ⟨a, ha, rfl, -, -⟩ := exists_ofWords hpos hparts
    rw [ha] at h
    cases h
    exact ⟨(isDrawn_of_drawParts? hparts).length_bits, hpos⟩

theorem size_of_generate {n : Nat} {e f : Entropy} {s : Schedule} (h : generate n e = .ok (s, f)) :
    s.size = n ∧ 0 < n := by
  unfold generate at h
  split at h
  · cases h
  · next key rest _ =>
    cases hwords : ofWords n (ChaCha.Generator.ofKey key) with
    | error err =>
      rw [hwords] at h
      cases h
    | ok a =>
      rw [hwords] at h
      cases h
      exact size_of_ofWords hwords

theorem generate_zero (e : Entropy) : ∃ err, generate 0 e = .error err := by
  cases h : generate 0 e with
  | error err => exact ⟨err, rfl⟩
  | ok p => exact absurd (size_of_generate h).2 (Nat.lt_irrefl 0)

theorem generate_of_short {e : Entropy} (h : e.length < 32) (n : Nat) : generate n e = .error .rng := by
  rw [generate, Entropy.draw?, if_neg (Nat.not_le.mpr h)]

/-! ## Drawing ends -/

/-- From the sources with the property `p` a number below every bound up to `n` can be drawn, and the source has the
property again. -/
def Serves (n : Nat) (p : σ → Prop) : Prop := ∀ m, 0 < m → m ≤ n → ∀ s, p s → ∃ j t, below? m s = some (j, t) ∧ p t

section Serves

variable {n : Nat} {p : σ → Prop} (hp : Serves n p) {s : σ}

include hp

theorem Serves.exists_shuffle? (h : p s) {i : Nat} (hi : i < n) (a : Array Nat) :
    ∃ a' t, shuffle? i a s = some (a', t) ∧ p t := by
  induction i generalizing a s with
  | zero => exact ⟨a, s, rfl, h⟩
  | succ i ih =>
    obtain ⟨j, t, hj, ht⟩ := hp (i + 2) (Nat.succ_pos _) hi s h
    rw [shuffle?, hj]
    exact ih ht (Nat.lt_of_succ_lt hi) _

theorem Serves.exists_shuffleFront? (h : p s) {count i : Nat} {a : Array Nat} (hi : i + count ≤ a.size)
    (ha : a.size ≤ n) : ∃ a' t, shuffleFront? count i a s = some (a', t) ∧ p t := by
  induction count generalizing i a s with
  | zero => exact ⟨a, s, rfl, h⟩
  | succ count ih =>
    obtain ⟨j, t, hj, ht⟩ := hp (a.size - i) (by omega) ((Nat.sub_le ..).trans ha) s h
    rw [shuffleFront?, hj]
    refine ih ht ?_ ?_
    · rw [Array.size_swapIfInBounds]
      omega
    · rwa [Array.size_swapIfInBounds]

theorem Serves.exists_choose? (h : p s) {js : List Nat} (hjs : ∀ j ∈ js, j < n) (chosen : List Nat) :
    ∃ row t, choose? js chosen s = some (row, t) := by
  induction js generalizing chosen s with
  | nil => exact ⟨chosen, s, rfl⟩
  | cons j js ih =>
    obtain ⟨hj, hjs⟩ := List.forall_mem_cons.mp hjs
    obtain ⟨k, t, hk, ht⟩ := hp (j + 1) (Nat.succ_pos j) hj s h
    rw [choose?, hk]
    exact ih ht hjs _

theorem Serves.exists_sample? (h : p s) {count : Nat} (hle : count ≤ n) : ∃ row t, sample? n count s = some (row, t) := by
  rw [sample?]
  split
  · have hfront : 0 + count ≤ (Array.range n).size := by rwa [Nat.zero_add, Array.size_range]
    obtain ⟨a, t, ha, -⟩ := hp.exists_shuffleFront? h hfront (Nat.le_of_eq Array.size_range)
    exact ⟨_, _, by rw [ha]; rfl⟩
  · refine hp.exists_choose? h (fun j hj => ?_) []
    rw [List.mem_range'_1] at hj
    omega

theorem Serves.isSome_drawParts? (hn : 0 < n)
    (hpart : ∀ s, p s → ∃ j t, wideBelow? (maxPart - minPart + 1) s = some (j, t) ∧ p t) (h : p (skip n s)) :
    (drawParts? n s).isSome := by
  rw [← skip_bits] at h
  obtain ⟨a, t, ha, ht⟩ := hp.exists_shuffle? h (Nat.sub_lt hn Nat.one_pos) (Array.range n)
  obtain ⟨extra, u, hextra, hu⟩ := hpart t ht
  obtain ⟨row, v, hrow⟩ := hp.exists_sample? hu (Nat.min_le_right (minPart + extra) n)
  simp [drawParts?, ha, hextra, hrow]

end Serves

/-- Drawing ends if words keep coming that count for every bound up to the size, and for the length of the part. -/
theorem isSome_drawParts? {b : Nat} {s : σ} (h : Recurs b s) {n : Nat} (hn : 0 < n) (hb : (b + 1) * n ≤ 2 ^ 31)
    (hpart : (b + 1) * (maxPart - minPart + 1) ≤ 2 ^ 31) : (drawParts? n s).isSome := by
  have hserves : Serves n fun t : σ => Recurs b t := fun m hm hle t ht =>
    ht.exists_below? hm ((Nat.mul_le_mul_left _ hle).trans hb)
  exact hserves.isSome_drawParts? hn (fun t ht => ht.exists_wideBelow? (Nat.succ_pos _) hpart) (h.after n)

/-- Somewhere on its way a source meets a bound up to the size, or the one for the length of the part, for which it
never yields a number. -/
def GetsStuck (n : Nat) (s : σ) : Prop :=
  ∃ k, (∃ m, 0 < m ∧ m ≤ n ∧ Endless word 32 m (skip k s)) ∨ Endless doubleWord 64 (maxPart - minPart + 1) (skip k s)

/-- A drawing from a source that starts again comes to an end, unless no number of tries would do. -/
theorem isSome_drawParts?_or_getsStuck {n : Nat} (hn : 0 < n) {s : σ} (hs : skip period s = s) :
    (drawParts? n s).isSome ∨ GetsStuck n s := by
  refine or_iff_not_imp_right.mpr fun hstuck => ?_
  have hserves : Serves n fun t : σ => ∃ k, t = skip k s := by
    rintro m hm hle _ ⟨k, rfl⟩
    have hends : ¬Endless word 32 m (skip k s) := fun h => hstuck ⟨k, .inl ⟨m, hm, hle, h⟩⟩
    obtain ⟨j, i, hj⟩ := exists_of_not_endless (c := 1) (fun _ => rfl) (skip_skip hs k) hends
    exact ⟨j, skip i (skip k s), hj, k + i, (skip_add ..).symm⟩
  refine hserves.isSome_drawParts? hn ?_ ⟨n, rfl⟩
  rintro _ ⟨k, rfl⟩
  have hends : ¬Endless doubleWord 64 (maxPart - minPart + 1) (skip k s) := fun h => hstuck ⟨k, .inr h⟩
  obtain ⟨j, i, hj⟩ := exists_of_not_endless (c := 2) (fun _ => rfl) (skip_skip hs k) hends
  exact ⟨j, skip i (skip k s), hj, k + i, (skip_add ..).symm⟩

/-- A drawing that comes to an end yields a schedule whose parts fit together. From the words of a key it does, unless
it would not with any number of tries. -/
theorem exists_ofWords_isDrawn {n : Nat} (hn : 0 < n) (s : σ) :
    ((drawParts? n s).isSome → ∃ a, ofWords n s = .ok a ∧ IsDrawn n a.bits a.perm a.part) ∧
      ∀ key, (drawParts? n (ChaCha.Generator.ofKey key)).isSome ∨ GetsStuck n (ChaCha.Generator.ofKey key) := by
  refine ⟨fun hends => ?_, fun key => isSome_drawParts?_or_getsStuck hn (ChaCha.Generator.skip_period key)⟩
  obtain ⟨⟨bits, perm, part⟩, hparts⟩ := Option.isSome_iff_exists.mp hends
  obtain ⟨a, ha, rfl, rfl, rfl⟩ := exists_ofWords hn hparts
  exact ⟨a, ha, isDrawn_of_drawParts? hparts⟩

/-- Two schedules of size 40, with a part of 11 chosen steps and with one of 28 steps from the front of a shuffled row. -/
theorem exists_ofWords_isDrawn_seeded :
    (∃ a, ofWords 40 (ChaCha.Generator.ofSeed 1) = .ok a ∧ IsDrawn 40 a.bits a.perm a.part) ∧
      ∃ a, ofWords 40 (ChaCha.Generator.ofSeed 2) = .ok a ∧ IsDrawn 40 a.bits a.perm a.part := by
  have hchosen : (drawParts? 40 (ChaCha.Generator.ofSeed 1)).isSome := by decide +kernel
  have hshuffled : (drawParts? 40 (ChaCha.Generator.ofSeed 2)).isSome := by decide +kernel
  exact ⟨(exists_ofWords_isDrawn (by decide) _).1 hchosen, (exists_ofWords_isDrawn (by decide) _).1 hshuffled⟩

end Signet.Schedule
