import Signet.Proofs.Batch.Acceptance
import Signet.Proofs.Batch.Chunks
import Signet.Proofs.Random.ChaCha
import Signet.Proofs.Schedule.Draw

/-!
# Supply of schedules

An engine that has schedules for all sizes from the chunk size to less than two times it has one for each chunk of a
large set. The default sizes are such sizes for the default chunk size, and also cover sets that are smaller by some.
-/

namespace Signet

/-! ## Populating -/

/-- There are random bytes for a schedule of each of the given sizes, and the drawing of each comes to an end. -/
def Cache.Supplies : List Nat → Entropy → Prop
  | [], _ => True
  | n :: ns, e => Schedule.Ends n e ∧ Supplies ns (e.drop 32)

namespace Cache

theorem supports_insert {c : Cache} (h : c.Increasing) {s : Schedule} {n : Nat} :
    (c.insert s).supports n = true ↔ c.supports n = true ∨ s.size = n := by
  rw [supports, lookup_insert h, Option.isSome_or, Bool.or_eq_true, supports]
  refine or_congr_right ?_
  split
  · next hn => exact iff_of_true rfl hn
  · next hn => exact iff_of_false Bool.false_ne_true hn

theorem Growth.exists_draw {growth : Growth} {n : Nat} (h : Schedule.Ends n growth.entropy) (hn : 0 < n) :
    ∃ s : Schedule, s.size = n ∧ (growth.draw n).cache = growth.cache.insert s ∧
      (growth.draw n).entropy = growth.entropy.drop 32 := by
  obtain ⟨s, hs, hparts⟩ := h.exists_generate hn
  refine ⟨s, (Schedule.isDrawn_of_drawParts? hparts).length_bits, ?_⟩
  rw [Growth.draw, hs]
  exact ⟨rfl, rfl⟩

/-- No random bytes are taken for the size 0. -/
theorem supports_foldl_draw {ns : List Nat} {growth : Growth} (hc : growth.cache.Increasing)
    (h : Supplies (ns.filter (0 < ·)) growth.entropy) {n : Nat} (hn : n ∈ ns) (hpos : 0 < n) :
    (ns.foldl Growth.draw growth).cache.supports n = true := by
  induction ns generalizing growth with
  | nil => cases hn
  | cons m ns ih =>
    rw [List.foldl_cons]
    have hinc := ((Extends.refl hc).draw m).increasing
    rcases Nat.eq_zero_or_pos m with rfl | hm
    · obtain ⟨-, -, hentropy⟩ := Growth.draw_of_error (Schedule.generate_zero growth.entropy)
      rw [List.filter_cons_of_neg (by simp), ← hentropy] at h
      exact ih hinc h ((List.mem_cons.mp hn).resolve_left hpos.ne')
    · rw [List.filter_cons_of_pos (by simpa using hm)] at h
      obtain ⟨hends, hrest⟩ := h
      obtain ⟨s, hsize, hcache, hentropy⟩ := Growth.exists_draw hends hm
      rcases List.mem_cons.mp hn with rfl | hn
      · have hnew : (growth.draw n).cache.supports n = true := by
          rw [hcache]
          exact (supports_insert hc).mpr (.inr hsize)
        exact ((Extends.refl hinc).foldl_draw ns).supports hnew
      · exact ih hinc (hentropy ▸ hrest) hn

theorem mem_missing {c : Cache} {ranges : List (Nat × Nat)} {n : Nat} :
    n ∈ c.missing ranges ↔ (∃ r ∈ ranges, r.1 ≤ n ∧ n ≤ r.2) ∧ c.supports n = false := by
  rw [missing, List.mem_filter, List.mem_flatMap, Bool.not_eq_true']
  refine and_congr_left fun _ => exists_congr fun r => and_congr_right fun _ => ?_
  rw [List.mem_range'_1]
  omega

/-- With random bytes for all that is missing a cache comes to have all sizes in the ranges. -/
theorem supports_populate {c : Cache} (hc : c.Increasing) {ranges : List (Nat × Nat)} {e : Entropy}
    (h : Supplies ((c.missing ranges).filter (0 < ·)) e) {r : Nat × Nat} (hr : r ∈ ranges) {n : Nat} (hlow : r.1 ≤ n)
    (hhigh : n ≤ r.2) (hpos : 0 < n) : (c.populate ranges e).cache.supports n = true := by
  cases hn : c.supports n with
  | true => exact (extends_populate hc ranges e).supports hn
  | false => exact supports_foldl_draw hc h (mem_missing.mpr ⟨⟨r, hr, hlow, hhigh⟩, hn⟩) hpos

end Cache

namespace Engine

theorem supports_withDefaults {e : Entropy} (h : Cache.Supplies (Cache.missing [] defaultRanges) e) {n : Nat}
    (hlow : 31 ≤ n) (hhigh : n ≤ 100) : (withDefaults e).cache.supports n = true := by
  have hpos : (Cache.missing [] defaultRanges).filter (0 < ·) = Cache.missing [] defaultRanges := by decide
  have hmem : (31, 100) ∈ defaultRanges := by decide
  have hempty : Cache.Increasing [] := .nil
  dsimp only [withDefaults, populate, empty]
  exact Cache.supports_populate hempty (hpos.symm ▸ h) hmem hlow hhigh (by omega)

/-! ## Resource gaps -/

theorem lookup_of_verify {g : Engine} {k : Key} {messages signatures : List Bytes} {n : Nat}
    (h : g.verify k messages signatures = .error (.missingArrays n)) : g.cache.lookup messages.length = none := by
  rcases verify_eq_error h with hshape | ⟨i, -, hfault⟩ | ⟨-, hnone⟩ | heq
  · rcases checkShape_eq_error hshape with heq | heq | heq <;> cases heq
  · cases hfault
  · exact hnone
  · cases heq

/-- No chunk failed for want of a schedule. -/
def Outcome.HasNoGap (o : Outcome) : Prop := ∀ f ∈ o.failed, ∀ n, f.2 ≠ .missingArrays n

section

variable {k : Key} (hs : k.suite = .ecdsaP256) {messages signatures : List Bytes}
  (hlen : messages.length = signatures.length)

include hs hlen

theorem exists_hasNoGap {g : Engine} (hpos : 0 < messages.length)
    (h : ∀ r ∈ chunkRanges messages.length g.chunkSize,
      r.2 ≤ messages.length ∧ g.cache.supports (r.2 - r.1) = true) :
    ∃ o, g.multiVerify k messages signatures = .ok o ∧ o.HasNoGap := by
  refine ⟨_, (multiVerify_eq_ok ..).mpr ⟨checkShape_eq_ok.mpr ⟨hs, hlen, hpos⟩, rfl⟩, fun f hf n heq => ?_⟩
  obtain ⟨hr, hverify⟩ := (mem_failures ..).mp hf
  obtain ⟨hbound, hsupports⟩ := h f.1 hr
  rw [heq] at hverify
  have hnone := lookup_of_verify hverify
  rw [length_slice hbound] at hnone
  rw [Cache.supports, hnone] at hsupports
  cases hsupports

theorem exists_hasNoGap_of_supports {g : Engine}
    (h : ∀ n, g.chunkSize ≤ n → n < 2 * g.chunkSize → g.cache.supports n = true)
    (hle : g.chunkSize ≤ messages.length) : ∃ o, g.multiVerify k messages signatures = .ok o ∧ o.HasNoGap := by
  refine exists_hasNoGap hs hlen (g.chunkSize_pos.trans_le hle) fun r hr => ?_
  obtain ⟨hbound, hlow, hhigh⟩ := mem_chunkRanges g.chunkSize_pos hle hr
  exact ⟨hbound, h _ (by omega) (by omega)⟩

/-- No chunk of a set of at least one full chunk lacks a schedule if there is one for each size from the chunk size to
less than two times it. With the default sizes, no chunk of a set of at least 31 does. -/
theorem multiVerify_supplied :
    (∀ g : Engine, (∀ n, g.chunkSize ≤ n → n < 2 * g.chunkSize → g.cache.supports n = true) →
      g.chunkSize ≤ messages.length → ∃ o, g.multiVerify k messages signatures = .ok o ∧ o.HasNoGap) ∧
    ∀ e : Entropy, Cache.Supplies (Cache.missing [] defaultRanges) e → 31 ≤ messages.length →
      ∃ o, (withDefaults e).multiVerify k messages signatures = .ok o ∧ o.HasNoGap := by
  refine ⟨fun g => exists_hasNoGap_of_supports hs hlen, fun e he hle => ?_⟩
  have hchunk : (withDefaults e).chunkSize = 50 := rfl
  rcases Nat.lt_or_ge messages.length 50 with hsmall | hlarge
  · -- A set that is smaller than a chunk is one chunk, of a default size.
    refine exists_hasNoGap hs hlen (by omega) fun r hr => ?_
    rw [hchunk, chunkRanges_single (by omega) (by omega), List.mem_singleton] at hr
    rw [hr]
    exact ⟨le_rfl, supports_withDefaults he (by omega) (by omega)⟩
  · refine exists_hasNoGap_of_supports hs hlen (fun n hlow hhigh => ?_) hlarge
    rw [hchunk] at hlow hhigh
    exact supports_withDefaults he (by omega) (by omega)

end

theorem supplies_zero {ns : List Nat} (h : ∀ n ∈ ns, 0 < n ∧ n ≤ 501) :
    Cache.Supplies ns (List.replicate (32 * ns.length) 0) := by
  induction ns with
  | nil => trivial
  | cons n ns ih =>
    obtain ⟨⟨hpos, hle⟩, hns⟩ := List.forall_mem_cons.mp h
    refine ⟨⟨?_, ?_⟩, ?_⟩
    · rw [List.length_replicate, List.length_cons]
      omega
    · rw [List.take_replicate, Nat.min_eq_left (by rw [List.length_cons]; omega)]
      exact Schedule.isSome_drawParts? ChaCha.Generator.recurs_ofKey_zero hpos (by omega) (by decide)
    · rw [List.drop_replicate, List.length_cons, Nat.mul_succ, Nat.add_sub_cancel]
      exact ih hns

/-- The default schedules can be drawn from zero bytes. -/
theorem multiVerify_supplied_zero :
    (∃ o, (plain.withChunkSize 1).multiVerify (.ofScalar .ecdsaP256 1) (List.replicate 31 [])
      (List.replicate 31 []) = .ok o ∧ o.HasNoGap) ∧
    ∃ o, (withDefaults (List.replicate 2336 0)).multiVerify (.ofScalar .ecdsaP256 1) (List.replicate 31 [])
      (List.replicate 31 []) = .ok o ∧ o.HasNoGap := by
  have hs : (Key.ofScalar .ecdsaP256 1).suite = .ecdsaP256 := rfl
  have hlen : (List.replicate 31 ([] : Bytes)).length = (List.replicate 31 ([] : Bytes)).length := rfl
  have hsizes : ∀ n ∈ Cache.missing [] defaultRanges, 0 < n ∧ n ≤ 501 := by decide
  have hcount : 32 * (Cache.missing [] defaultRanges).length = 2336 := by decide
  obtain ⟨hchunk, hdefault⟩ := multiVerify_supplied hs hlen
  refine ⟨hchunk (plain.withChunkSize 1) (fun n hlow hhigh => ?_) (by decide), hdefault _ ?_ (by decide)⟩
  · obtain rfl : n = 1 := Nat.le_antisymm (Nat.le_of_lt_succ hhigh) hlow
    rfl
  · rw [← hcount]
    exact supplies_zero hsizes

end Engine

end Signet
