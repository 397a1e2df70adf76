import Signet.Proofs.Batch.Reachable
import Signet.Proofs.Key.Equation
import Signet.Proofs.Key.Point

/-!
# Which signature a batch is refused for

A signature is an entry if it is the strict DER of four integers that pass a chain of checks, and it is refused for the
first of them that fails. A batch is refused for the first signature that is no entry, before a schedule is looked up.
-/

namespace Signet

open Curve

namespace BatchEntry

variable {C : Curve} {index : Nat} {b : Bytes}

/-- A written signature makes an entry: its four integers are residues other than 0, and the last two are a point of
the curve with the first integer as its first coordinate. -/
def IsEntry (C : Curve) (b : Bytes) : Prop :=
  ∃ r s x y, Signature.IsWritten r s [x, y] b ∧ (C.InRange r ∧ C.InRange s ∧ C.InRange x ∧ C.InRange y) ∧
    C.Solves x y ∧ r = x

/-- The error for the first check that a written signature fails. -/
inductive Refusal (C : Curve) (index : Nat) (b : Bytes) : BatchError → Prop
  | malformed {f : SignatureFault} (h : ∀ r s x y, ¬Signature.IsWritten r s [x, y] b)
    (hf : Signature.ofRichDer b = .error (.malformedSignature f)) : Refusal C index b (.malformedSignature index f)
  | outOfRange {r s x y : Nat} (h : Signature.IsWritten r s [x, y] b)
    (hrange : ¬(C.InRange r ∧ C.InRange s ∧ C.InRange x ∧ C.InRange y)) : Refusal C index b (.outOfRange index)
  | notOnCurve {r s x y : Nat} (h : Signature.IsWritten r s [x, y] b)
    (hrange : C.InRange r ∧ C.InRange s ∧ C.InRange x ∧ C.InRange y) (hcurve : ¬C.Solves x y) :
    Refusal C index b (.pointNotOnCurve index)
  | mismatch {r s x y : Nat} (h : Signature.IsWritten r s [x, y] b)
    (hrange : C.InRange r ∧ C.InRange s ∧ C.InRange x ∧ C.InRange y) (hcurve : C.Solves x y) (hne : r ≠ x) :
    Refusal C index b (.pointMismatch index)

variable [C.IsElliptic]

theorem exists_decode_iff : (∃ a, decode C index b = .ok a) ↔ IsEntry C b := by
  constructor
  · rintro ⟨a, ha⟩
    obtain ⟨r, s, x, y, hread, -⟩ := decode_eq_ok.mp ha
    have hagrees := hread.agrees
    rw [Nat.mod_eq_of_lt hread.reduced_x.2] at hagrees
    exact ⟨r, s, x, y, Signature.isWritten_rich_iff.mpr ⟨r, s, x, y, hread.signature, rfl, rfl, rfl, rfl⟩,
      ⟨hread.reduced_r, hread.reduced_s, hread.reduced_x, hread.reduced_y⟩, contains_iff_solves.mp hread.contains,
      hagrees.symm⟩
  · rintro ⟨_, _, _, _, hwritten, ⟨hr, hs, hx, hy⟩, hcurve, hagrees⟩
    obtain ⟨r, s, x, y, hread, rfl, rfl, rfl, rfl⟩ := Signature.isWritten_rich_iff.mp hwritten
    have hmod : x.val % C.n = r.val := by rw [Nat.mod_eq_of_lt hx.2, hagrees]
    exact ⟨_, decode_eq_ok.mpr ⟨r, s, x, y, ⟨hread, hr, hs, hx, hy, contains_iff_solves.mpr hcurve, hmod⟩, rfl⟩⟩

theorem refusal_of_decode {e : BatchError} (h : decode C index b = .error e) : Refusal C index b e := by
  rcases Signature.ofRichDer_cases b with ⟨r, s, x, y, hread⟩ | ⟨f, hread⟩
  · have hwritten : Signature.IsWritten r.val s.val [x.val, y.val] b :=
      Signature.isWritten_rich_iff.mpr ⟨r, s, x, y, hread, rfl, rfl, rfl, rfl⟩
    have hnumbers : ofNumbers C index r s x y = .error e := by rwa [decode, hread] at h
    by_cases hrange : C.InRange r ∧ C.InRange s ∧ C.InRange x ∧ C.InRange y
    · rw [ofNumbers_of_inRange hrange] at hnumbers
      by_cases hcurve : C.contains x y = true
      · have hsolves := contains_iff_solves.mp hcurve
        rw [if_pos hcurve, Nat.mod_eq_of_lt hrange.2.2.1.2] at hnumbers
        by_cases hagrees : x.val = r.val
        · rw [if_pos hagrees] at hnumbers
          cases hnumbers
        · rw [if_neg hagrees] at hnumbers
          cases hnumbers
          exact .mismatch hwritten hrange hsolves (Ne.symm hagrees)
      · rw [if_neg hcurve] at hnumbers
        cases hnumbers
        exact .notOnCurve hwritten hrange (mt contains_iff_solves.mpr hcurve)
    · rw [ofNumbers_of_not_inRange hrange] at hnumbers
      cases hnumbers
      exact .outOfRange hwritten hrange
  · rw [decode, hread] at h
    cases h
    refine .malformed (fun r s x y hwritten => ?_) hread
    obtain ⟨_, _, _, _, hok, -⟩ := Signature.isWritten_rich_iff.mp hwritten
    rw [hread] at hok
    cases hok

end BatchEntry

namespace Engine

open BatchEntry

variable {g : Engine} {k : Key} {messages signatures : List Bytes}

theorem verify_of_decodeAll {e : BatchError} (hshape : checkShape k messages signatures = .ok ())
    (h : decodeAll p256 0 signatures = .error e) : g.verify k messages signatures = .error e := by
  rw [verify, hshape, h]
  rfl

/-- A batch is refused for its first signature that makes no entry, with the error for the first check that this one
fails, whatever schedules there are. That one is missing is only reported if every signature makes an entry. -/
theorem verify_refuses_first (hs : k.suite = .ecdsaP256) (hlen : messages.length = signatures.length)
    (hpos : 0 < messages.length) :
    ((∃ i < signatures.length, ¬IsEntry p256 (signatures.getD i [])) →
      ∃ i < signatures.length, (∀ j < i, IsEntry p256 (signatures.getD j [])) ∧
        ¬IsEntry p256 (signatures.getD i []) ∧
        ∃ e, Refusal p256 i (signatures.getD i []) e ∧ g.verify k messages signatures = .error e) ∧
    ∀ n, g.verify k messages signatures = .error (.missingArrays n) →
      ∀ i < signatures.length, IsEntry p256 (signatures.getD i []) := by
  have hshape := checkShape_eq_ok.mpr ⟨hs, hlen, hpos⟩
  cases h : decodeAll p256 0 signatures with
  | ok entries =>
    obtain ⟨E, -, hE⟩ := decodeAll_eq_ok.mp h
    have hall : ∀ i < signatures.length, IsEntry p256 (signatures.getD i []) := fun i hi =>
      exists_decode_iff.mp ⟨_, hE i hi⟩
    exact ⟨fun ⟨i, hi, hno⟩ => absurd (hall i hi) hno, fun _ _ => hall⟩
  | error e =>
    have hverify : g.verify k messages signatures = .error e := verify_of_decodeAll hshape h
    obtain ⟨i, hi, hbefore, hrefused⟩ := decodeAll_eq_error h
    refine ⟨fun _ => ⟨i, hi, fun j hj => exists_decode_iff.mp (hbefore j hj), fun hentry => ?_, e, ?_, hverify⟩,
      fun n hmissing => ?_⟩
    · obtain ⟨a, ha⟩ := exists_decode_iff.mpr hentry
      rw [hrefused] at ha
      cases ha
    · have hrefusal := refusal_of_decode hrefused
      rwa [Nat.zero_add] at hrefusal
    · rw [hverify] at hmissing
      cases hmissing
      cases faults_of_decode hrefused

/-- The signature with the numbers `r` and 1 that carries the base point. -/
def carryingBase (r : Nat) : Bytes := (Key.pack r 1 (some (Word256.ofNat p256.gx, Word256.ofNat p256.gy))).toDer

/-- Of three signatures the second one carries a point that does not fit and the third one is empty. -/
theorem verify_refuses_first_mismatch :
    Refusal p256 1 (carryingBase 2) (.pointMismatch 1) ∧
      Engine.empty.verify (.ofScalar .ecdsaP256 1) [[], [], []] [carryingBase p256.gx, carryingBase 2, []]
        = .error (.pointMismatch 1) := by
  have hfirst : IsEntry p256 (carryingBase p256.gx) :=
    exists_decode_iff.mp (exists_of_isOk (x := decode p256 0 (carryingBase p256.gx)) (by decide +kernel))
  have hsecond : ¬IsEntry p256 (carryingBase 2) := by
    intro hentry
    obtain ⟨a, ha⟩ : ∃ a, decode p256 1 (carryingBase 2) = .ok a := exists_decode_iff.mpr hentry
    have hrefused : decode p256 1 (carryingBase 2) = .error (.pointMismatch 1) := by decide +kernel
    rw [hrefused] at ha
    cases ha
  obtain ⟨hrefuses, -⟩ := @verify_refuses_first Engine.empty (.ofScalar .ecdsaP256 1) [[], [], []]
    [carryingBase p256.gx, carryingBase 2, []] rfl rfl (by decide)
  obtain ⟨i, -, hbefore, hno, e, he, hverify⟩ := hrefuses ⟨1, by decide, hsecond⟩
  obtain rfl : i = 1 := by
    rcases Nat.lt_trichotomy i 1 with hlt | heq | hgt
    · obtain rfl : i = 0 := Nat.lt_one_iff.mp hlt
      exact absurd hfirst hno
    · exact heq
    · exact absurd (hbefore 1 hgt) hsecond
  have heval : Engine.empty.verify (.ofScalar .ecdsaP256 1) [[], [], []]
      [carryingBase p256.gx, carryingBase 2, []] = .error (.pointMismatch 1) := by decide +kernel
  rw [heval] at hverify
  cases hverify
  exact ⟨he, heval⟩

end Engine

end Signet
