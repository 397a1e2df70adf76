import Signet.Proofs.Batch.Cache
import Signet.Proofs.Batch.Equation
import Signet.Proofs.Schedule.Rows

/-!
# Reachable engines

The engines that can be made, and the reasons for which a batch is refused. The checks that guard the fold against a
schedule of the wrong shape never fail.
-/

namespace Signet.Engine

/-- The engines that can be made from the empty one. -/
inductive Reachable : Engine → Prop
  | empty : Reachable .empty
  | withChunkSize {g : Engine} (h : Reachable g) (n : Nat) : Reachable (g.withChunkSize n)
  /-- Every schedule has passed the checks of `Schedule.ofParts`. -/
  | insert {g : Engine} (h : Reachable g) (s : Schedule) : Reachable (g.insert s)
  | populate {g : Engine} (h : Reachable g) (ranges : List (Nat × Nat)) (e : Entropy) :
    Reachable (g.populate ranges e).1

theorem Reachable.increasing {g : Engine} (h : g.Reachable) : g.cache.Increasing := by
  induction h with
  | empty => exact List.Pairwise.nil
  | withChunkSize _ _ ih => exact ih
  | insert _ s ih => exact ih.insert s
  | populate _ ranges e ih => exact (Cache.extends_populate ih ranges e).increasing

/-! ## Why batches are refused -/

theorem checkShape_eq_error {k : Key} {messages signatures : List Bytes} {e : BatchError}
    (h : checkShape k messages signatures = .error e) :
    e = .unsupportedSuite k.suite ∨ e = .lengthMismatch messages.length signatures.length ∨ e = .emptyBatch := by
  unfold checkShape at h
  split at h
  · cases h
    exact .inl rfl
  · split at h
    · cases h
      exact .inr (.inl rfl)
    · split at h
      · cases h
        exact .inr (.inr rfl)
      · cases h

/-- As many entries as a schedule has are compared; the comparison can only come out false. -/
theorem eq_rejected_of_holds {s : Schedule} {Q : Point} {entries : List BatchEntry} {digests : List Nat}
    {e : BatchError} (hlen : entries.length = s.size) (h : holds s Q entries digests = .error e) : e = .rejected := by
  have hpoints : (entries.map BatchEntry.point).length = s.size := by rwa [List.length_map]
  simp only [holds, s.fold_of_length Curve.p256 hpoints] at h
  split at h
  · cases h
    rfl
  · rcases bind_eq_error.mp h with h | ⟨R, -, h⟩
    · cases h
    · split at h
      · cases h
      · cases h
        rfl

/-- A batch is refused for its shape, for one of its signatures, for want of a schedule, or as false. -/
theorem verify_eq_error {g : Engine} {k : Key} {messages signatures : List Bytes} {e : BatchError}
    (h : g.verify k messages signatures = .error e) :
    checkShape k messages signatures = .error e ∨ (∃ i < signatures.length, BatchEntry.Faults i e) ∨
      (e = .missingArrays messages.length ∧ g.cache.lookup messages.length = none) ∨ e = .rejected := by
  rcases bind_eq_error.mp h with h | ⟨_, hshape, h⟩
  · exact .inl h
  rcases bind_eq_error.mp h with h | ⟨entries, hentries, h⟩
  · obtain ⟨i, hi, hf⟩ := BatchEntry.faults_of_decodeAll h
    exact .inr (.inl ⟨i, hi, by rwa [Nat.zero_add] at hf⟩)
  cases ha : g.cache.lookup messages.length with
  | none =>
    rw [ha] at h
    cases h
    exact .inr (.inr (.inl ⟨rfl, rfl⟩))
  | some a =>
    have hsize := size_of_lookup ha
    obtain ⟨E, rfl, -⟩ := BatchEntry.decodeAll_eq_ok.mp hentries
    have hlen : ((List.range signatures.length).map E).length = a.size := by
      rw [List.length_map, List.length_range, hsize, (checkShape_eq_ok.mp hshape).2.1]
    simp only [ha] at h
    rw [if_neg (not_not_intro hsize)] at h
    exact .inr (.inr (.inr (eq_rejected_of_holds hlen h)))

/-- A refusal never blames the schedule. -/
theorem ne_of_verify {g : Engine} {k : Key} {messages signatures : List Bytes} {e : BatchError}
    (h : g.verify k messages signatures = .error e) :
    (∀ expected found, e ≠ .sizeMismatch expected found) ∧ ∀ index size, e ≠ .indexOutOfRange index size := by
  rcases verify_eq_error h with hshape | ⟨i, -, hfault⟩ | ⟨rfl, -⟩ | rfl
  · rcases checkShape_eq_error hshape with rfl | rfl | rfl <;> simp
  · cases hfault <;> simp
  · simp
  · simp

/-- No check on the shape of a schedule fails while a batch is verified, since every schedule is found under its size
and has as many of everything. -/
theorem Reachable.verify_consistent {g : Engine} (h : g.Reachable) :
    (∀ (k : Key) (messages signatures : List Bytes),
      (∀ expected found, g.verify k messages signatures ≠ .error (.sizeMismatch expected found)) ∧
        ∀ index size, g.verify k messages signatures ≠ .error (.indexOutOfRange index size)) ∧
    (∀ s ∈ g.cache, g.cache.lookup s.size = some s) ∧
    ∀ (n : Nat) (s : Schedule), g.cache.lookup n = some s →
      (s.coefficients Curve.p256.n).length = n ∧ s.bits.length = n ∧ s.perm.length = n ∧
        (∀ j ∈ s.perm, j < n) ∧ ∀ j ∈ s.part, j < n := by
  refine ⟨fun k messages signatures => ⟨fun expected found herr => ?_, fun index size herr => ?_⟩,
    fun s => h.increasing.lookup_of_mem, fun n s hs => ?_⟩
  · exact (ne_of_verify herr).1 expected found rfl
  · exact (ne_of_verify herr).2 index size rfl
  · obtain rfl : s.size = n := size_of_lookup hs
    exact ⟨Schedule.length_coefficients _ s, rfl, s.length_perm, s.perm_lt, s.part_lt⟩

/-- The engine with a given schedule of size 3 for which the sizes from 2 to 4 are drawn. -/
def drawnAround : Engine := ((Engine.empty.insert Schedule.repeated).populate [(2, 4)] (List.replicate 64 0)).1

theorem Reachable.verify_consistent_repeated :
    drawnAround.Reachable ∧ drawnAround.cache.lookup 3 = some Schedule.repeated ∧
      (Schedule.repeated.coefficients Curve.p256.n).length = 3 ∧ (∀ j ∈ Schedule.repeated.part, j < 3) ∧
      ∀ (k : Key) (messages signatures : List Bytes) (index size : Nat),
        drawnAround.verify k messages signatures ≠ .error (.indexOutOfRange index size) := by
  have hgiven : (Engine.empty.insert Schedule.repeated).Reachable := .insert .empty Schedule.repeated
  have hreachable : drawnAround.Reachable := .populate hgiven _ _
  have hfound : drawnAround.cache.lookup 3 = some Schedule.repeated :=
    (Cache.extends_populate hgiven.increasing _ _).lookup rfl
  obtain ⟨hverify, -, hentries⟩ := Reachable.verify_consistent hreachable
  obtain ⟨hlen, -, -, -, hpart⟩ := hentries 3 Schedule.repeated hfound
  exact ⟨hreachable, hfound, hlen, hpart, fun k messages signatures => (hverify k messages signatures).2⟩

end Signet.Engine
