import Signet.Proofs.Batch.Reachable
import Mathlib.Data.List.Range

/-!
# Chunks

The chunks of a large set follow each other, and each of them holds at least one full chunk and less than two. The set
is checked as its chunks are, in whatever order they come to their end.
-/

namespace Signet.Engine

/-! ## Ranges -/

theorem chunkRanges_eq {total chunk : Nat} (ht : 0 < total) (hc : 0 < chunk) :
    chunkRanges total chunk = (List.range (max 1 (total / chunk))).map fun i =>
      (i * chunk, if i + 1 = max 1 (total / chunk) then total else (i + 1) * chunk) := by
  rw [chunkRanges, if_neg ht.ne', Nat.max_eq_left hc]
  by_cases hzero : total / chunk = 0
  · rw [if_pos hzero, hzero]
    simp
  · rw [if_neg hzero, Nat.max_eq_right (Nat.pos_of_ne_zero hzero)]

theorem length_chunkRanges {total chunk : Nat} (ht : 0 < total) (hc : 0 < chunk) :
    (chunkRanges total chunk).length = max 1 (total / chunk) := by
  rw [chunkRanges_eq ht hc, List.length_map, List.length_range]

theorem pairwise_chunkRanges {total chunk : Nat} (ht : 0 < total) (hc : 0 < chunk) :
    (chunkRanges total chunk).Pairwise fun a b => a.1 < b.1 := by
  rw [chunkRanges_eq ht hc]
  exact List.pairwise_map.mpr (List.pairwise_lt_range.imp fun h => Nat.mul_lt_mul_of_pos_right h hc)

/-- A set of less than two chunks is one chunk. -/
theorem chunkRanges_single {total chunk : Nat} (ht : 0 < total) (h : total < 2 * chunk) :
    chunkRanges total chunk = [(0, total)] := by
  have hone : max 1 (total / chunk) = 1 := Nat.max_eq_left (Nat.le_of_lt_succ (Nat.div_lt_of_lt_mul (by omega)))
  rw [chunkRanges_eq ht (by omega), hone]
  simp

/-- A chunk of a set of at least one full chunk lies in it, and has from one to less than two times the chunk size. -/
theorem mem_chunkRanges {total chunk : Nat} (hc : 0 < chunk) (h : chunk ≤ total) {r : Nat × Nat}
    (hr : r ∈ chunkRanges total chunk) : r.2 ≤ total ∧ r.1 + chunk ≤ r.2 ∧ r.2 < r.1 + 2 * chunk := by
  have hcount : 0 < total / chunk := Nat.div_pos h hc
  have hlow : total / chunk * chunk ≤ total := Nat.div_mul_le_self total chunk
  have hhigh : total < total / chunk * chunk + chunk := Nat.lt_div_mul_add hc
  rw [chunkRanges_eq (hc.trans_le h) hc, Nat.max_eq_right hcount] at hr
  obtain ⟨i, hi, rfl⟩ := List.mem_map.mp hr
  have hi : i < total / chunk := List.mem_range.mp hi
  dsimp only
  split
  · next hlast =>
    rw [← hlast, Nat.succ_mul] at hlow hhigh
    exact ⟨le_rfl, hlow, by omega⟩
  · have hle : (i + 1) * chunk ≤ total := (Nat.mul_le_mul_right chunk hi).trans hlow
    rw [Nat.succ_mul] at hle ⊢
    exact ⟨hle, le_rfl, by omega⟩

example : chunkRanges 130 50 = [(0, 50), (50, 130)] := by decide

theorem length_slice {α : Type} {r : Nat × Nat} {xs : List α} (h : r.2 ≤ xs.length) :
    (slice r xs).length = r.2 - r.1 := by
  rw [slice, List.length_take, List.length_drop]
  omega

theorem slice_all {α : Type} (xs : List α) : slice (0, xs.length) xs = xs := by
  rw [slice, List.drop_zero, Nat.sub_zero, List.take_length]

/-! ## Verification -/

variable (g : Engine) (k : Key) (messages signatures : List Bytes)

theorem verifyChunk_eq_some {r : Nat × Nat} {f : (Nat × Nat) × BatchError} :
    g.verifyChunk k messages signatures r = some f ↔
      f.1 = r ∧ g.verify k (slice r messages) (slice r signatures) = .error f.2 := by
  obtain ⟨r', e⟩ := f
  rw [verifyChunk]
  cases g.verify k (slice r messages) (slice r signatures) <;> simp [eq_comm]

theorem mem_failures {ranges : List (Nat × Nat)} {f : (Nat × Nat) × BatchError} :
    f ∈ ranges.filterMap (g.verifyChunk k messages signatures) ↔
      f.1 ∈ ranges ∧ g.verify k (slice f.1 messages) (slice f.1 signatures) = .error f.2 := by
  simp only [List.mem_filterMap, verifyChunk_eq_some]
  constructor
  · rintro ⟨r, hr, rfl, he⟩
    exact ⟨hr, he⟩
  · rintro ⟨hr, he⟩
    exact ⟨f.1, hr, rfl, he⟩

theorem pairwise_failures {ranges : List (Nat × Nat)} (h : ranges.Pairwise fun a b => a.1 < b.1) :
    (ranges.filterMap (g.verifyChunk k messages signatures)).Pairwise fun a b => a.1.1 < b.1.1 := by
  refine List.Pairwise.filterMap _ (fun a b hlt f hf f' hf' => ?_) h
  rwa [((verifyChunk_eq_some ..).mp hf).1, ((verifyChunk_eq_some ..).mp hf').1]

/-- The chunks that failed when the chunks come to their end in the given order: they are collected as they come, and
then sorted by where they start. -/
def collect (finished : List (Nat × Nat)) : List ((Nat × Nat) × BatchError) :=
  (finished.filterMap (g.verifyChunk k messages signatures)).mergeSort fun a b => decide (a.1.1 ≤ b.1.1)

/-- The order in which chunks come to their end does not show. -/
theorem collect_eq {ranges finished : List (Nat × Nat)} (hranges : ranges.Pairwise fun a b => a.1 < b.1)
    (h : finished.Perm ranges) :
    g.collect k messages signatures finished = ranges.filterMap (g.verifyChunk k messages signatures) := by
  have hstart := pairwise_failures g k messages signatures hranges
  have hperm := (List.mergeSort_perm _ fun a b : (Nat × Nat) × BatchError => decide (a.1.1 ≤ b.1.1)).trans
    (h.filterMap (g.verifyChunk k messages signatures))
  have hsorted : (g.collect k messages signatures finished).Pairwise fun a b => a.1.1 ≤ b.1.1 := by
    refine (List.pairwise_mergeSort ?_ ?_ _).imp of_decide_eq_true
    · simpa using fun a _ b _ c _ => Nat.le_trans
    · simpa using fun a _ b _ => Nat.le_total a b
  refine List.Perm.eq_of_pairwise (fun a b ha hb hab hba => ?_) hsorted (hstart.imp Nat.le_of_lt) hperm
  have hnodup := List.pairwise_map.mpr (hstart.imp Nat.ne_of_lt)
  exact List.inj_on_of_nodup_map hnodup (hperm.mem_iff.mp ha) hb (Nat.le_antisymm hab hba)

/-- `multiVerify`, with the chunks of the large set coming to their end in the order in which they are given. -/
def multiVerifyAs (finished : List (Nat × Nat)) : Except BatchError Outcome := do
  checkShape k messages signatures
  return ⟨messages.length, finished.length, g.collect k messages signatures finished⟩

theorem multiVerify_eq_error {e : BatchError} :
    g.multiVerify k messages signatures = .error e ↔ checkShape k messages signatures = .error e := by
  rw [multiVerify, bind_eq_error]
  refine ⟨fun h => ?_, .inl⟩
  rcases h with h | ⟨_, _, h⟩
  · exact h
  · cases h

theorem multiVerify_eq_ok {o : Outcome} :
    g.multiVerify k messages signatures = .ok o ↔
      checkShape k messages signatures = .ok () ∧
        o = ⟨messages.length, (chunkRanges messages.length g.chunkSize).length,
          (chunkRanges messages.length g.chunkSize).filterMap (g.verifyChunk k messages signatures)⟩ := by
  rw [multiVerify, bind_eq_ok]
  constructor
  · rintro ⟨_, hshape, h⟩
    exact ⟨hshape, (pure_eq_ok.mp h).symm⟩
  · rintro ⟨hshape, rfl⟩
    exact ⟨(), hshape, rfl⟩

theorem exists_checkShape_eq_error :
    (∃ e, checkShape k messages signatures = .error e) ↔
      k.suite ≠ .ecdsaP256 ∨ messages.length ≠ signatures.length ∨ messages = [] := by
  have hok : checkShape k messages signatures = .ok () ↔ _ := checkShape_eq_ok
  cases h : checkShape k messages signatures with
  | error e =>
    rw [h] at hok
    have hno := mt hok.mpr (by simp)
    rw [List.length_pos_iff] at hno
    exact ⟨fun _ => by tauto, fun _ => ⟨e, rfl⟩⟩
  | ok u =>
    obtain ⟨hs, hlen, hpos⟩ := hok.mp h
    simp [hs, hlen, List.length_pos_iff.mp hpos]

theorem multiVerifyAs_eq {finished : List (Nat × Nat)}
    (h : finished.Perm (chunkRanges messages.length g.chunkSize)) :
    g.multiVerifyAs k messages signatures finished = g.multiVerify k messages signatures := by
  rw [multiVerifyAs, multiVerify]
  cases hshape : checkShape k messages signatures with
  | error e => rfl
  | ok u =>
    have hpos : 0 < messages.length := (checkShape_eq_ok.mp hshape).2.2
    rw [g.collect_eq k messages signatures (pairwise_chunkRanges hpos g.chunkSize_pos) h, h.length_eq]

/-- All of a set that is one chunk is valid if the set is, as a batch. -/
theorem filterMap_verifyChunk_all (h : messages.length = signatures.length) :
    [(0, messages.length)].filterMap (g.verifyChunk k messages signatures) = [] ↔
      g.verify k messages signatures = .ok () := by
  have hsignatures : slice (0, messages.length) signatures = signatures := by rw [h, slice_all]
  rw [List.filterMap_eq_nil_iff, List.forall_mem_singleton, verifyChunk, slice_all, hsignatures]
  cases g.verify k messages signatures <;> simp

/-- A large set is refused for its shape only, as it would be as one batch. Otherwise the failures are those of the
chunks, by position, whatever order the chunks come to their end in; less than two chunks are one batch. -/
theorem multiVerify_exact :
    (∀ finished, finished.Perm (chunkRanges messages.length g.chunkSize) →
      g.multiVerifyAs k messages signatures finished = g.multiVerify k messages signatures) ∧
    ((∃ e, g.multiVerify k messages signatures = .error e) ↔
      k.suite ≠ .ecdsaP256 ∨ messages.length ≠ signatures.length ∨ messages = []) ∧
    (∀ e, g.multiVerify k messages signatures = .error e → g.verify k messages signatures = .error e) ∧
    ∀ o, g.multiVerify k messages signatures = .ok o →
      o.total = messages.length ∧ o.chunks = max 1 (messages.length / g.chunkSize) ∧
        (o.failed.Pairwise fun a b => a.1.1 < b.1.1) ∧
        (∀ r e, (r, e) ∈ o.failed ↔
          r ∈ chunkRanges messages.length g.chunkSize ∧
            g.verify k (slice r messages) (slice r signatures) = .error e) ∧
        (messages.length < 2 * g.chunkSize → (o.allValid = true ↔ g.verify k messages signatures = .ok ())) := by
  refine ⟨fun finished => multiVerifyAs_eq g k messages signatures, ?_, fun e he => ?_, fun o ho => ?_⟩
  · simp only [multiVerify_eq_error]
    exact exists_checkShape_eq_error k messages signatures
  · exact bind_eq_error.mpr (.inl ((multiVerify_eq_error ..).mp he))
  · obtain ⟨hshape, rfl⟩ := (multiVerify_eq_ok ..).mp ho
    obtain ⟨-, hlen, hpos⟩ := checkShape_eq_ok.mp hshape
    refine ⟨rfl, length_chunkRanges hpos g.chunkSize_pos, ?_, fun r e => mem_failures .., fun hsmall => ?_⟩
    · exact pairwise_failures g k messages signatures (pairwise_chunkRanges hpos g.chunkSize_pos)
    · rw [Outcome.allValid, List.isEmpty_iff, chunkRanges_single hpos hsmall]
      exact filterMap_verifyChunk_all g k messages signatures hlen

end Signet.Engine
