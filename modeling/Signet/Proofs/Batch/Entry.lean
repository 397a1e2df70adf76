import Signet.Batch.Entry
import Signet.Proofs.Curve.Encoding
import Signet.Proofs.Key.Verification

/-!
# What entries are read from

A written signature is an entry exactly when its numbers are residues other than 0, the last two are the coordinates of
a point, and the first coordinate leaves the number `r`.
-/

namespace Signet

namespace BatchEntry

variable {C : Curve}

/-- The numbers of a rich signature that make an entry. -/
structure Reads (C : Curve) (b : Bytes) (r s x y : Word256) : Prop where
  signature : Signature.ofRichDer b = .ok ⟨r, s, some (x, y)⟩
  reduced_r : 1 ≤ r.val ∧ r.val < C.n
  reduced_s : 1 ≤ s.val ∧ s.val < C.n
  reduced_x : 1 ≤ x.val ∧ x.val < C.n
  reduced_y : 1 ≤ y.val ∧ y.val < C.n
  contains : C.contains x y = true
  agrees : x.val % C.n = r.val

section Checks

variable {index : Nat} {r s x y : Word256}

theorem ofNumbers_of_not_inRange (h : ¬(C.InRange r ∧ C.InRange s ∧ C.InRange x ∧ C.InRange y)) :
    ofNumbers C index r s x y = .error (.outOfRange index) := by
  unfold ofNumbers
  split
  · next er es ex ey =>
    have hr := (Curve.reduced?_eq_some.mp er).2
    have hs := (Curve.reduced?_eq_some.mp es).2
    have hx := (Curve.reduced?_eq_some.mp ex).2
    have hy := (Curve.reduced?_eq_some.mp ey).2
    exact absurd ⟨hr, hs, hx, hy⟩ h
  · rfl

theorem ofNumbers_of_inRange (h : C.InRange r ∧ C.InRange s ∧ C.InRange x ∧ C.InRange y) :
    ofNumbers C index r s x y
      = if C.contains x y then
          if x.val % C.n = r.val then .ok ⟨r.val, Modular.inv C.n s.val, .affine x.val y.val⟩
          else .error (.pointMismatch index)
        else .error (.pointNotOnCurve index) := by
  obtain ⟨hr, hs, hx, hy⟩ := h
  simp only [ofNumbers, Curve.reduced?_eq, if_pos hr, if_pos hs, if_pos hx, if_pos hy, Curve.point?]
  cases C.contains x y <;> rfl

theorem ofNumbers_eq_ok {e : BatchEntry} :
    ofNumbers C index r s x y = .ok e ↔
      (1 ≤ r.val ∧ r.val < C.n) ∧ (1 ≤ s.val ∧ s.val < C.n) ∧ (1 ≤ x.val ∧ x.val < C.n)
        ∧ (1 ≤ y.val ∧ y.val < C.n) ∧ C.contains x y = true ∧ x.val % C.n = r.val
        ∧ e = ⟨r.val, Modular.inv C.n s.val, .affine x.val y.val⟩ := by
  by_cases hrange : C.InRange r ∧ C.InRange s ∧ C.InRange x ∧ C.InRange y
  · rw [ofNumbers_of_inRange hrange]
    obtain ⟨hr, hs, hx, hy⟩ := hrange
    constructor
    · intro h
      split at h
      · next hc =>
        split at h
        · next hxr =>
          cases h
          exact ⟨hr, hs, hx, hy, hc, hxr, rfl⟩
        · cases h
      · cases h
    · rintro ⟨-, -, -, -, hc, hxr, rfl⟩
      rw [if_pos hc, if_pos hxr]
  · rw [ofNumbers_of_not_inRange hrange]
    constructor
    · intro h
      cases h
    · rintro ⟨hr, hs, hx, hy, -⟩
      exact absurd ⟨hr, hs, hx, hy⟩ hrange

end Checks

theorem decode_eq_ok {index : Nat} {b : Bytes} {e : BatchEntry} :
    decode C index b = .ok e ↔
      ∃ r s x y : Word256, Reads C b r s x y ∧ e = ⟨r.val, Modular.inv C.n s.val, .affine x.val y.val⟩ := by
  constructor
  · intro h
    unfold decode at h
    split at h
    · next r s x y hg =>
      obtain ⟨hr, hs, hx, hy, hc, hxr, he⟩ := ofNumbers_eq_ok.mp h
      exact ⟨r, s, x, y, ⟨hg, hr, hs, hx, hy, hc, hxr⟩, he⟩
    · cases h
    · cases h
  · rintro ⟨r, s, x, y, hb, he⟩
    rw [decode, hb.signature]
    exact ofNumbers_eq_ok.mpr ⟨hb.reduced_r, hb.reduced_s, hb.reduced_x, hb.reduced_y, hb.contains, hb.agrees, he⟩

/-- The errors about the signature at a position. -/
inductive Faults (index : Nat) : BatchError → Prop
  | malformed (f : SignatureFault) : Faults index (.malformedSignature index f)
  | outOfRange : Faults index (.outOfRange index)
  | notOnCurve : Faults index (.pointNotOnCurve index)
  | mismatch : Faults index (.pointMismatch index)

theorem faults_of_ofNumbers {index : Nat} {r s x y : Word256} {e : BatchError}
    (h : ofNumbers C index r s x y = .error e) : Faults index e := by
  by_cases hrange : C.InRange r ∧ C.InRange s ∧ C.InRange x ∧ C.InRange y
  · rw [ofNumbers_of_inRange hrange] at h
    split at h
    · split at h
      · cases h
      · cases h
        exact .mismatch
    · cases h
      exact .notOnCurve
  · rw [ofNumbers_of_not_inRange hrange] at h
    cases h
    exact .outOfRange

theorem faults_of_decode {index : Nat} {b : Bytes} {e : BatchError} (h : decode C index b = .error e) :
    Faults index e := by
  unfold decode at h
  split at h
  · exact faults_of_ofNumbers h
  · cases h
    exact .malformed _
  · cases h
    exact .malformed _

/-- A list is refused for the first of its members that is refused. -/
theorem decodeAll_eq_error {index : Nat} {bs : List Bytes} {e : BatchError} (h : decodeAll C index bs = .error e) :
    ∃ i < bs.length, (∀ j < i, ∃ a, decode C (index + j) (bs.getD j []) = .ok a) ∧
      decode C (index + i) (bs.getD i []) = .error e := by
  induction bs generalizing index with
  | nil => cases h
  | cons b bs ih =>
    rw [decodeAll, bind_eq_error] at h
    rcases h with h | ⟨a, ha, h⟩
    · exact ⟨0, Nat.succ_pos _, fun j hj => absurd hj (Nat.not_lt_zero j), h⟩
    · rcases bind_eq_error.mp h with h | ⟨as, -, h⟩
      · obtain ⟨i, hi, hbefore, hrefused⟩ := ih h
        refine ⟨i + 1, Nat.succ_lt_succ hi, fun j hj => ?_, ?_⟩
        · cases j with
          | zero => exact ⟨a, ha⟩
          | succ j =>
            rw [← Nat.add_assoc, Nat.add_right_comm]
            exact hbefore j (Nat.lt_of_succ_lt_succ hj)
        · rw [← Nat.add_assoc, Nat.add_right_comm]
          exact hrefused
      · cases h

theorem faults_of_decodeAll {index : Nat} {bs : List Bytes} {e : BatchError} (h : decodeAll C index bs = .error e) :
    ∃ i < bs.length, Faults (index + i) e := by
  obtain ⟨i, hi, -, hrefused⟩ := decodeAll_eq_error h
  exact ⟨i, hi, faults_of_decode hrefused⟩

/-- A written signature with the numbers `r` and `s` is an entry with the point `R`. -/
theorem decode_eq_ok_iff (index : Nat) {b : Bytes} {r s : Word256} {w : Nat} {R : Point} :
    (∃ x y, Signature.ofRichDer b = .ok ⟨r, s, some (x, y)⟩) ∧ decode C index b = .ok ⟨r.val, w, R⟩ ↔
      w = Modular.inv C.n s.val ∧ ∃ x y, Reads C b r s x y ∧ R = .affine x.val y.val := by
  constructor
  · rintro ⟨⟨x, y, hb⟩, h⟩
    obtain ⟨r', s', x', y', hr, he⟩ := decode_eq_ok.mp h
    have hsig := hr.signature
    rw [hb] at hsig
    cases hsig
    cases he
    exact ⟨rfl, x, y, hr, rfl⟩
  · rintro ⟨rfl, x, y, hr, rfl⟩
    exact ⟨⟨x, y, hr.signature⟩, decode_eq_ok.mpr ⟨r, s, x, y, hr, rfl⟩⟩

/-- The entries of a list are the ones of its members at their positions. -/
theorem decodeAll_eq_ok {index : Nat} {bs : List Bytes} {es : List BatchEntry} :
    decodeAll C index bs = .ok es ↔
      ∃ E : Nat → BatchEntry, es = (List.range bs.length).map E
        ∧ ∀ i < bs.length, decode C (index + i) (bs.getD i []) = .ok (E i) := by
  induction bs generalizing index es with
  | nil =>
    rw [decodeAll, Except.ok.injEq]
    constructor
    · rintro rfl
      exact ⟨fun _ => ⟨0, 0, .infinity⟩, rfl, fun i hi => absurd hi (Nat.not_lt_zero i)⟩
    · rintro ⟨E, rfl, -⟩
      rfl
  | cons b bs ih =>
    simp only [decodeAll, bind_eq_ok, pure_eq_ok, ih, List.length_cons, List.range_succ_eq_map, List.map_cons,
      List.map_map]
    constructor
    · rintro ⟨e, he, _, ⟨E, rfl, hE⟩, rfl⟩
      refine ⟨fun i => i.casesOn e E, rfl, fun i hi => ?_⟩
      cases i with
      | zero => exact he
      | succ i =>
        rw [← Nat.add_assoc, Nat.add_right_comm]
        exact hE i (Nat.lt_of_succ_lt_succ hi)
    · rintro ⟨E, rfl, hE⟩
      refine ⟨E 0, hE 0 (Nat.succ_pos _), _, ⟨E ∘ Nat.succ, rfl, fun i hi => ?_⟩, rfl⟩
      rw [Nat.add_assoc, Nat.add_comm 1 i]
      exact hE (i + 1) (Nat.succ_lt_succ hi)

end BatchEntry

end Signet
