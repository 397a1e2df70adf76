import Signet.Batch.Cache
import Mathlib.Data.Finset.Card
import Mathlib.Data.List.Nodup

/-!
# Caches keep their schedules

A cache whose sizes increase stays so, and a schedule that is inserted or drawn never replaces another one.
-/

namespace Signet.Cache

/-- The sizes of the schedules increase, so that there is one of each size. -/
def Increasing (c : Cache) : Prop := c.sizes.Pairwise (· < ·)

theorem increasing_cons {t : Schedule} {c : Cache} :
    Increasing (t :: c) ↔ (∀ u ∈ c, t.size < u.size) ∧ c.Increasing := by
  rw [Increasing, sizes, List.map_cons, List.pairwise_cons, List.forall_mem_map]
  rfl

theorem lookup_cons (t : Schedule) (c : Cache) (n : Nat) :
    lookup (t :: c) n = if t.size = n then some t else c.lookup n := by
  rw [lookup, List.find?_cons]
  by_cases h : t.size = n
  · rw [if_pos h, beq_iff_eq.mpr h]
  · rw [if_neg h, beq_eq_false_iff_ne.mpr h]
    rfl

theorem lookup_eq_none {c : Cache} {n : Nat} : c.lookup n = none ↔ n ∉ c.sizes := by
  simp [lookup, sizes]

/-- Every schedule is found under its size. -/
theorem Increasing.lookup_of_mem {c : Cache} (h : c.Increasing) {s : Schedule} (hs : s ∈ c) :
    c.lookup s.size = some s := by
  induction c with
  | nil => cases hs
  | cons t c ih =>
    obtain ⟨ht, hc⟩ := increasing_cons.mp h
    rw [lookup_cons]
    rcases List.mem_cons.mp hs with rfl | hs
    · exact if_pos rfl
    · rw [if_neg (ht s hs).ne]
      exact ih hc hs

theorem supports_iff {c : Cache} {n : Nat} : c.supports n = true ↔ n ∈ c.sizes := by
  rw [supports, Option.isSome_iff_ne_none, ne_eq, lookup_eq_none, not_not]

/-! ## Insertion -/

theorem mem_insert {s u : Schedule} {c : Cache} (h : u ∈ c.insert s) : u = s ∨ u ∈ c := by
  induction c with
  | nil => exact .inl (List.mem_singleton.mp h)
  | cons t c ih =>
    rw [insert] at h
    split at h
    · exact List.mem_cons.mp h
    · split at h
      · exact .inr h
      · rcases List.mem_cons.mp h with rfl | h
        · exact .inr (List.mem_cons_self ..)
        · exact (ih h).imp_right (List.mem_cons_of_mem t)

theorem Increasing.insert {c : Cache} (h : c.Increasing) (s : Schedule) : (c.insert s).Increasing := by
  induction c with
  | nil => exact List.pairwise_singleton ..
  | cons t c ih =>
    obtain ⟨ht, hc⟩ := increasing_cons.mp h
    rw [Cache.insert]
    split
    · next hlt =>
      refine increasing_cons.mpr ⟨fun u hu => ?_, h⟩
      rcases List.mem_cons.mp hu with rfl | hu
      · exact hlt
      · exact hlt.trans (ht u hu)
    · next hlt =>
      split
      · exact h
      · next hne =>
        refine increasing_cons.mpr ⟨fun u hu => ?_, ih hc⟩
        rcases mem_insert hu with rfl | hu
        · omega
        · exact ht u hu

/-- A schedule is found under its size after it was inserted, unless there was one before. -/
theorem lookup_insert {c : Cache} (h : c.Increasing) (s : Schedule) (n : Nat) :
    (c.insert s).lookup n = (c.lookup n).or (if s.size = n then some s else none) := by
  induction c with
  | nil => exact lookup_cons s [] n
  | cons t c ih =>
    obtain ⟨ht, hc⟩ := increasing_cons.mp h
    rw [insert]
    split
    · next hlt =>
      rw [lookup_cons s]
      by_cases hn : s.size = n
      · have hnone : lookup (t :: c) n = none := by
          refine lookup_eq_none.mpr fun hmem => ?_
          obtain ⟨u, hu, rfl⟩ := List.mem_map.mp hmem
          rcases List.mem_cons.mp hu with rfl | hu
          · omega
          · have := ht u hu
            omega
        rw [if_pos hn, hnone, if_pos hn, Option.none_or]
      · rw [if_neg hn, if_neg hn, Option.or_none]
    · split
      · next heq =>
        rw [lookup_cons, heq]
        by_cases hn : t.size = n <;> simp [hn]
      · rw [lookup_cons, lookup_cons, ih hc]
        by_cases hn : t.size = n <;> simp [hn]

theorem length_insert {c : Cache} (h : c.Increasing) (s : Schedule) :
    (c.insert s).length = c.length + if c.supports s.size then 0 else 1 := by
  induction c with
  | nil => rfl
  | cons t c ih =>
    obtain ⟨ht, hc⟩ := increasing_cons.mp h
    rw [insert]
    split
    · next hlt =>
      have hno : ¬supports (t :: c) s.size = true := by
        rw [supports_iff, sizes, List.mem_map]
        rintro ⟨u, hu, hs⟩
        rcases List.mem_cons.mp hu with rfl | hu
        · omega
        · have := ht u hu
          omega
      rw [if_neg hno]
      rfl
    · split
      · next heq =>
        have hyes : supports (t :: c) s.size = true := by
          rw [supports, lookup_cons, if_pos heq.symm]
          rfl
        rw [if_pos hyes]
        rfl
      · next hne =>
        have hsame : supports (t :: c) s.size = supports c s.size := by
          rw [supports, lookup_cons, if_neg (Ne.symm hne)]
          rfl
        rw [List.length_cons, ih hc, hsame, List.length_cons, Nat.add_right_comm]

/-! ## Growth -/

/-- A later cache that has every schedule of an earlier one. -/
structure Extends (c d : Cache) : Prop where
  increasing : d.Increasing
  lookup : ∀ {n : Nat} {s : Schedule}, c.lookup n = some s → d.lookup n = some s

theorem Extends.refl {c : Cache} (h : c.Increasing) : Extends c c := ⟨h, id⟩

theorem Extends.trans {a b c : Cache} (hab : Extends a b) (hbc : Extends b c) : Extends a c :=
  ⟨hbc.increasing, fun h => hbc.lookup (hab.lookup h)⟩

theorem extends_insert {c : Cache} (h : c.Increasing) (s : Schedule) : Extends c (c.insert s) := by
  refine ⟨h.insert s, fun hn => ?_⟩
  rw [lookup_insert h, hn, Option.some_or]

theorem Extends.supports {c d : Cache} (h : Extends c d) {n : Nat} (hn : c.supports n = true) :
    d.supports n = true := by
  obtain ⟨s, hs⟩ := Option.isSome_iff_exists.mp hn
  rw [Cache.supports, h.lookup hs]
  rfl

/-- A cache has grown by as many schedules as it has new sizes. -/
theorem Extends.length_eq {c d : Cache} (h : Extends c d) (hc : c.Increasing) :
    d.length = c.length + (d.sizes.toFinset \ c.sizes.toFinset).card := by
  have hcard : ∀ {b : Cache}, b.Increasing → b.sizes.toFinset.card = b.length := by
    intro b hb
    rw [List.toFinset_card_of_nodup (hb.imp Nat.ne_of_lt), sizes, List.length_map]
  have hsub : c.sizes.toFinset ⊆ d.sizes.toFinset := by
    intro n hn
    rw [List.mem_toFinset, ← supports_iff] at hn ⊢
    exact h.supports hn
  have hsum := Finset.card_sdiff_add_card_eq_card hsub
  rw [hcard hc, hcard h.increasing] at hsum
  omega

theorem Growth.draw_of_error {g : Growth} {n : Nat} (h : ∃ err, Schedule.generate n g.entropy = .error err) :
    (g.draw n).cache = g.cache ∧ (g.draw n).added = g.added ∧ (g.draw n).entropy = g.entropy := by
  obtain ⟨err, h⟩ := h
  rw [Growth.draw, h]
  exact ⟨rfl, rfl, rfl⟩

theorem Extends.draw {c : Cache} {g : Growth} (h : Extends c g.cache) (n : Nat) : Extends c (g.draw n).cache := by
  rw [Growth.draw]
  split
  · exact h
  · exact h.trans (extends_insert h.increasing _)

theorem Extends.foldl_draw {c : Cache} {g : Growth} (h : Extends c g.cache) (ns : List Nat) :
    Extends c (ns.foldl Growth.draw g).cache := by
  induction ns generalizing g with
  | nil => exact h
  | cons n ns ih => exact ih (h.draw n)

theorem extends_populate {c : Cache} (h : c.Increasing) (ranges : List (Nat × Nat)) (e : Entropy) :
    Extends c (c.populate ranges e).cache :=
  (Extends.refl h).foldl_draw _

end Signet.Cache
