import Mathlib.Data.List.Forall2

/-!
# Results of several steps
-/

namespace Signet

variable {ε α β : Type}

/-- A computation in two steps succeeds exactly when both steps do. -/
theorem bind_eq_ok {x : Except ε α} {f : α → Except ε β} {b : β} :
    x >>= f = .ok b ↔ ∃ a, x = .ok a ∧ f a = .ok b := by
  cases x with
  | error e =>
    constructor
    · intro h
      cases h
    · rintro ⟨a, h, -⟩
      cases h
  | ok a =>
    constructor
    · intro h
      exact ⟨a, rfl, h⟩
    · rintro ⟨a, h, hf⟩
      cases h
      exact hf

/-- A computation in two steps fails exactly when one of the steps does. -/
theorem bind_eq_error {x : Except ε α} {f : α → Except ε β} {e : ε} :
    x >>= f = .error e ↔ x = .error e ∨ ∃ a, x = .ok a ∧ f a = .error e := by
  cases x with
  | error e' =>
    constructor
    · intro h
      cases h
      exact .inl rfl
    · rintro (h | ⟨a, h, -⟩)
      · cases h
        rfl
      · cases h
  | ok a =>
    constructor
    · intro h
      exact .inr ⟨a, rfl, h⟩
    · rintro (h | ⟨a', h, hf⟩)
      · cases h
      · cases h
        exact hf

theorem pure_eq_ok {a b : α} : (pure a : Except ε α) = .ok b ↔ a = b :=
  ⟨fun h => by cases h; rfl, fun h => h ▸ rfl⟩

theorem exists_of_isOk {x : Except ε α} (h : x.isOk = true) : ∃ a, x = .ok a := by
  cases x with
  | error e => cases h
  | ok a => exact ⟨a, rfl⟩

theorem exists_of_any {x : Except ε α} {p : α → Prop} [DecidablePred p] (h : x.toOption.any (p ·) = true) :
    ∃ a, x = .ok a ∧ p a := by
  cases x with
  | error e => cases h
  | ok a => exact ⟨a, rfl, by simpa [Except.toOption] using h⟩

/-- Reading each member of a list that was written member by member. -/
theorem mapM_map_eq_some {γ : Type} {write : α → β} {read? : β → Option γ} {f : α → γ}
    {as : List α} (h : ∀ a ∈ as, read? (write a) = some (f a)) : (as.map write).mapM read? = some (as.map f) := by
  induction as with
  | nil => rfl
  | cons a as ih =>
    obtain ⟨ha, has⟩ := List.forall_mem_cons.mp h
    rw [List.map_cons, List.mapM_cons, ha, ih has]
    rfl

theorem forall₂_of_mapM {read? : β → Option α} {bs : List β} {as : List α} (h : bs.mapM read? = some as) :
    List.Forall₂ (fun b a => read? b = some a) bs as := by
  induction bs generalizing as with
  | nil =>
    cases h
    exact .nil
  | cons b bs ih =>
    rw [List.mapM_cons] at h
    simp only [Option.bind_eq_bind, Option.bind_eq_some_iff] at h
    obtain ⟨a, ha, as', has, hcons⟩ := h
    cases hcons
    exact .cons ha (ih has)

theorem forall_of_forall₂ {R : β → α → Prop} {p : α → Prop} {bs : List β} {as : List α} (h : List.Forall₂ R bs as)
    (hp : ∀ b a, R b a → p a) : ∀ a ∈ as, p a := by
  induction h with
  | nil => exact List.forall_mem_nil p
  | cons hr _ ih => exact List.forall_mem_cons.mpr ⟨hp _ _ hr, ih⟩

theorem eq_map_of_forall₂ {write : α → β} {bs : List β} {as : List α} (h : List.Forall₂ (fun b a => b = write a) bs as) :
    bs = as.map write := by
  rwa [← List.forall₂_map_right_iff, List.forall₂_eq_eq_eq] at h

/-- Reading each member of a list, where only what is written is read. -/
theorem mapM_eq_some {write : α → β} {read? : β → Option α} (h : ∀ {b a}, read? b = some a ↔ b = write a)
    {bs : List β} {as : List α} : bs.mapM read? = some as ↔ bs = as.map write := by
  constructor
  · intro hread
    exact eq_map_of_forall₂ ((forall₂_of_mapM hread).imp fun _ _ hb => h.mp hb)
  · rintro rfl
    rw [mapM_map_eq_some fun a _ => h.mpr rfl, List.map_id']

/-! ## Limits -/

/-- A number, unless it is larger than a limit. -/
def within? (limit n : Nat) : Option Nat := if n ≤ limit then some n else none

theorem within?_of_le {limit n : Nat} (h : n ≤ limit) : within? limit n = some n := if_pos h

end Signet
