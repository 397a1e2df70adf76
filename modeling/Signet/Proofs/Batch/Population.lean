import Signet.Proofs.Batch.Supply

/-!
# Sizes that are populated

To populate an engine adds the sizes in the ranges that it did not have, except 0, and each of them once. Random bytes
that run out at once leave it as it is.
-/

namespace Signet

namespace Cache

variable {growth : Growth}

/-! ## One more draw -/

/-- Drawing adds no other size than the one that it is for. -/
theorem supports_of_draw (hc : growth.cache.Increasing) {m n : Nat} (h : (growth.draw m).cache.supports n = true) :
    growth.cache.supports n = true ∨ n = m ∧ 0 < n := by
  cases hs : Schedule.generate m growth.entropy with
  | error err =>
    rw [(Growth.draw_of_error ⟨err, hs⟩).1] at h
    exact .inl h
  | ok p =>
    obtain ⟨s, f⟩ := p
    obtain ⟨hsize, hpos⟩ := Schedule.size_of_generate hs
    have hcache : (growth.draw m).cache = growth.cache.insert s := by rw [Growth.draw, hs]
    rw [hcache, supports_insert hc, hsize] at h
    refine h.imp_right ?_
    rintro rfl
    exact ⟨rfl, hpos⟩

/-- The count keeps up with the cache, which had `k` schedules when nothing was counted. -/
theorem length_draw (hc : growth.cache.Increasing) {k : Nat} (h : growth.cache.length = k + growth.added) (n : Nat) :
    (growth.draw n).cache.length = k + (growth.draw n).added := by
  rw [Growth.draw]
  split
  · exact h
  · next s _ _ =>
    dsimp only
    rw [length_insert hc, h]
    split
    · rfl
    · exact Nat.add_assoc ..

/-! ## All draws -/

theorem supports_of_foldl_draw (hc : growth.cache.Increasing) {ns : List Nat} {n : Nat}
    (h : (ns.foldl Growth.draw growth).cache.supports n = true) :
    growth.cache.supports n = true ∨ n ∈ ns ∧ 0 < n := by
  induction ns generalizing growth with
  | nil => exact .inl h
  | cons m ns ih =>
    have hinc := ((Extends.refl hc).draw m).increasing
    rcases ih hinc h with h | ⟨hn, hpos⟩
    · rcases supports_of_draw hc h with h | ⟨rfl, hpos⟩
      · exact .inl h
      · exact .inr ⟨List.mem_cons_self, hpos⟩
    · exact .inr ⟨List.mem_cons_of_mem m hn, hpos⟩

theorem length_foldl_draw (hc : growth.cache.Increasing) {k : Nat} (h : growth.cache.length = k + growth.added)
    (ns : List Nat) :
    (ns.foldl Growth.draw growth).cache.length = k + (ns.foldl Growth.draw growth).added := by
  induction ns generalizing growth with
  | nil => exact h
  | cons n ns ih => exact ih ((Extends.refl hc).draw n).increasing (length_draw hc h n)

/-- A draw that fails takes no random bytes, so that the next one is no better off. -/
theorem foldl_draw_of_error {ns : List Nat} (h : ∀ n ∈ ns, ∃ err, Schedule.generate n growth.entropy = .error err) :
    (ns.foldl Growth.draw growth).cache = growth.cache ∧ (ns.foldl Growth.draw growth).added = growth.added := by
  induction ns generalizing growth with
  | nil => exact ⟨rfl, rfl⟩
  | cons n ns ih =>
    obtain ⟨hn, hns⟩ := List.forall_mem_cons.mp h
    obtain ⟨hcache, hadded, hentropy⟩ := Growth.draw_of_error hn
    obtain ⟨hcache', hadded'⟩ := ih (hentropy.symm ▸ hns)
    exact ⟨hcache'.trans hcache, hadded'.trans hadded⟩

end Cache

namespace Engine

variable {g : Engine}

theorem length_populate (hc : g.cache.Increasing) (ranges : List (Nat × Nat)) (e : Entropy) :
    (g.populate ranges e).1.cache.sizes.length = g.cache.sizes.length + (g.populate ranges e).2.added := by
  rw [Cache.sizes, Cache.sizes, List.length_map, List.length_map]
  exact Cache.length_foldl_draw hc rfl (g.cache.missing ranges)

theorem supports_populate_iff (hc : g.cache.Increasing) {ranges : List (Nat × Nat)} {e : Entropy}
    (h : Cache.Supplies ((g.cache.missing ranges).filter (0 < ·)) e) {n : Nat} :
    (g.populate ranges e).1.cache.supports n = true ↔
      g.cache.supports n = true ∨ n ≠ 0 ∧ ∃ r ∈ ranges, r.1 ≤ n ∧ n ≤ r.2 := by
  constructor
  · intro hn
    refine (Cache.supports_of_foldl_draw hc hn).imp_right ?_
    rintro ⟨hmissing, hpos⟩
    exact ⟨hpos.ne', (Cache.mem_missing.mp hmissing).1⟩
  · rintro (hn | ⟨hpos, r, hr, hlow, hhigh⟩)
    · exact (Cache.extends_populate hc ranges e).supports hn
    · exact Cache.supports_populate hc h hr hlow hhigh (Nat.pos_of_ne_zero hpos)

/-- Nothing happens when no missing size can be drawn. -/
theorem populate_of_error {ranges : List (Nat × Nat)} {e : Entropy}
    (h : ∀ n ∈ g.cache.missing ranges, ∃ err, Schedule.generate n e = .error err) :
    (g.populate ranges e).1 = g ∧ (g.populate ranges e).2.added = 0 := by
  obtain ⟨hcache, hadded⟩ : (g.cache.populate ranges e).cache = g.cache ∧ (g.cache.populate ranges e).added = 0 :=
    Cache.foldl_draw_of_error h
  refine ⟨?_, hadded⟩
  rw [populate, hcache]

/-- After it was populated an engine has the sizes that it had before and those in the ranges that are not 0. It
counts the new ones, keeps the schedules of the old ones, and has nothing to add when it is populated again. Without
random bytes it stays as it is. The sizes of every engine increase. -/
theorem Reachable.populate_exact (hg : g.Reachable) (ranges : List (Nat × Nat)) :
    (∀ e : Entropy, Cache.Supplies ((g.cache.missing ranges).filter (0 < ·)) e →
      (∀ n, (g.populate ranges e).1.cache.supports n = true ↔
        g.cache.supports n = true ∨ n ≠ 0 ∧ ∃ r ∈ ranges, r.1 ≤ n ∧ n ≤ r.2) ∧
      ∀ e', ((g.populate ranges e).1.populate ranges e').1 = (g.populate ranges e).1 ∧
        ((g.populate ranges e).1.populate ranges e').2.added = 0) ∧
    (∀ e : Entropy,
      (g.populate ranges e).1.cache.sizes.length = g.cache.sizes.length + (g.populate ranges e).2.added ∧
      ∀ n s, g.cache.lookup n = some s → (g.populate ranges e).1.cache.lookup n = some s) ∧
    (∀ e : Entropy, e.length < 32 → (g.populate ranges e).1 = g ∧ (g.populate ranges e).2.added = 0) ∧
    g.cache.sizes.Pairwise (· < ·) ∧ ∀ n, n ∈ g.cache.sizes ↔ g.cache.supports n = true := by
  have hinc := hg.increasing
  refine ⟨fun e he => ?_, fun e => ?_, fun e he => ?_, hinc, fun n => Cache.supports_iff.symm⟩
  · have hiff (n : Nat) := supports_populate_iff hinc he (n := n)
    refine ⟨hiff, fun e' => populate_of_error fun n hn => ?_⟩
    -- Only the size 0 can still be missing.
    obtain ⟨hrange, hmissing⟩ := Cache.mem_missing.mp hn
    rcases Nat.eq_zero_or_pos n with rfl | hpos
    · exact Schedule.generate_zero e'
    · rw [(hiff n).mpr (.inr ⟨hpos.ne', hrange⟩)] at hmissing
      cases hmissing
  · exact ⟨length_populate hinc ranges e, fun n s => (Cache.extends_populate hinc ranges e).lookup⟩
  · exact populate_of_error fun n _ => ⟨_, Schedule.generate_of_short he n⟩

/-- Ranges that overlap in the size 4, one with the size 0 and an empty one. -/
def overlapping : List (Nat × Nat) := [(0, 4), (4, 5), (7, 6)]

/-- The size 3 is there already, and the size 4 is drawn twice and counted once. -/
theorem Reachable.populate_exact_overlapping :
    (Engine.empty.insert Schedule.repeated).Reachable ∧
      Cache.Supplies (((Engine.empty.insert Schedule.repeated).cache.missing overlapping).filter (0 < ·))
        (List.replicate 160 0) ∧
      ((Engine.empty.insert Schedule.repeated).populate overlapping (List.replicate 160 0)).1.cache.supports 4 = true ∧
      (∀ e', (((Engine.empty.insert Schedule.repeated).populate overlapping (List.replicate 160 0)).1.populate
        overlapping e').2.added = 0) ∧
      ((Engine.empty.insert Schedule.repeated).populate overlapping (List.replicate 160 0)).1.cache.lookup 3
        = some Schedule.repeated ∧
      ([] : Entropy).length < 32 ∧ ((Engine.empty.insert Schedule.repeated).populate overlapping []).2.added = 0 := by
  have hreachable : (Engine.empty.insert Schedule.repeated).Reachable := .insert .empty Schedule.repeated
  have hsupplies : Cache.Supplies
      (((Engine.empty.insert Schedule.repeated).cache.missing overlapping).filter (0 < ·)) (List.replicate 160 0) :=
    supplies_zero (by decide : ∀ n ∈ [1, 2, 4, 4, 5], 0 < n ∧ n ≤ 501)
  have hshort : ([] : Entropy).length < 32 := by decide
  obtain ⟨hdrawn, hkept, hfailed, -⟩ := Reachable.populate_exact hreachable overlapping
  obtain ⟨hsizes, hagain⟩ := hdrawn _ hsupplies
  refine ⟨hreachable, hsupplies, (hsizes 4).mpr (.inr ⟨by decide, (0, 4), by decide, by decide⟩),
    fun e' => (hagain e').2, (hkept _).2 3 _ rfl, hshort, (hfailed [] hshort).2⟩

end Engine

end Signet
