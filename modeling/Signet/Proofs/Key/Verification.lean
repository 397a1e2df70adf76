import Signet.Key.Signing
import Signet.Proofs.Signature

/-!
# Which signatures are accepted

A written signature is accepted exactly when its numbers are residues other than 0 that satisfy the equation of the
suite. Only the suite and the point of the key count.
-/

namespace Signet

theorem Curve.reduced?_eq_some {C : Curve} {w : Word256} {m : Nat} :
    C.reduced? w = some m ↔ m = w.val ∧ 1 ≤ w.val ∧ w.val < C.n := by
  rw [reduced?, Option.ite_none_right_eq_some, Option.some.injEq]
  constructor
  · rintro ⟨h, rfl⟩
    exact ⟨rfl, h⟩
  · rintro ⟨rfl, h⟩
    exact ⟨h, rfl⟩

/-- The residues other than 0 modulo the order of a curve. -/
def Curve.InRange (C : Curve) (m : Nat) : Prop := 1 ≤ m ∧ m < C.n

instance (C : Curve) (m : Nat) : Decidable (C.InRange m) := inferInstanceAs (Decidable (_ ∧ _))

theorem Curve.reduced?_eq (C : Curve) (w : Word256) : C.reduced? w = if C.InRange w.val then some w.val else none := rfl

namespace Key

variable {k l : Key} {message b : Bytes} {g : Signature}

/-- What is decided about the numbers `r` and `s`. -/
def verdict (k : Key) (message : Bytes) (r s : Nat) : Except CryptoError Unit :=
  if k.suite.curve.InRange r ∧ k.suite.curve.InRange s then
    if k.accepts message r s then .ok () else .error .invalidSignature
  else .error .scalarOutOfRange

/-- Verification depends on the first two numbers only. -/
theorem verify_of_ofDer (h : Signature.ofDer b = .ok g) : k.verify message b = k.verdict message g.r g.s := by
  rw [verify, h, verdict]
  change (pure g >>= _) = _
  rw [pure_bind, Curve.reduced?_eq, Curve.reduced?_eq]
  by_cases hr : k.suite.curve.InRange g.r
  · by_cases hs : k.suite.curve.InRange g.s
    · rw [if_pos hr, if_pos hs, if_pos ⟨hr, hs⟩]
      rfl
    · have hboth : ¬(k.suite.curve.InRange g.r ∧ k.suite.curve.InRange g.s) := fun h => hs h.2
      rw [if_pos hr, if_neg hs, if_neg hboth]
      rfl
  · have hboth : ¬(k.suite.curve.InRange g.r ∧ k.suite.curve.InRange g.s) := fun h => hr h.1
    rw [if_neg hr, if_neg hboth]
    rfl

theorem verdict_eq_ok {r s : Nat} :
    k.verdict message r s = .ok () ↔
      (k.suite.curve.InRange r ∧ k.suite.curve.InRange s) ∧ k.accepts message r s = true := by
  unfold verdict
  constructor
  · intro h
    split at h
    · next hrange =>
      split at h
      · next haccepts => exact ⟨hrange, haccepts⟩
      · cases h
    · cases h
  · rintro ⟨hrange, haccepts⟩
    rw [if_pos hrange, if_pos haccepts]

/-- The numbers of a signature are residues other than 0 that satisfy the equation of the suite. -/
structure Confirms (k : Key) (message : Bytes) (g : Signature) : Prop where
  reduced_r : 1 ≤ g.r.val ∧ g.r.val < k.suite.curve.n
  reduced_s : 1 ≤ g.s.val ∧ g.s.val < k.suite.curve.n
  accepts : k.accepts message g.r g.s = true

theorem verify_eq_ok : k.verify message b = .ok () ↔ ∃ g, Signature.ofDer b = .ok g ∧ k.Confirms message g := by
  constructor
  · intro h
    obtain ⟨g, hg, -⟩ := bind_eq_ok.mp h
    rw [verify_of_ofDer hg] at h
    obtain ⟨⟨hr, hs⟩, haccepts⟩ := verdict_eq_ok.mp h
    exact ⟨g, hg, hr, hs, haccepts⟩
  · rintro ⟨g, hg, hr, hs, haccepts⟩
    rw [verify_of_ofDer hg]
    exact verdict_eq_ok.mpr ⟨⟨hr, hs⟩, haccepts⟩

theorem verify_congr (hs : k.suite = l.suite) (hP : k.point = l.point) : k.verify message b = l.verify message b := by
  have hacc : k.accepts message = l.accepts message := by
    funext r s
    rw [accepts, accepts, hs, hP]
  rw [verify, verify, hacc, hs]

/-- A confirmed signature is accepted in its written form. -/
theorem Confirms.verify_toDer (h : k.Confirms message g) : k.verify message g.toDer = .ok () :=
  verify_eq_ok.mpr ⟨g, g.ofDer_toDer, h⟩

theorem order_lt_size (s : Suite) : s.curve.n < Word256.size := by
  cases s <;> decide

/-- Packing residues that satisfy the equation gives a confirmed signature, whatever point it carries. -/
theorem confirms_pack {r s : Nat} {point : Option (Word256 × Word256)} (hr : 1 ≤ r ∧ r < k.suite.curve.n)
    (hs : 1 ≤ s ∧ s < k.suite.curve.n) (h : k.accepts message r s = true) :
    k.Confirms message (pack r s point) := by
  have hn := order_lt_size k.suite
  have er : (pack r s point).r.val = r := Word256.val_ofNat_of_lt (hr.2.trans hn)
  have es : (pack r s point).s.val = s := Word256.val_ofNat_of_lt (hs.2.trans hn)
  refine ⟨?_, ?_, ?_⟩
  · rwa [er]
  · rwa [es]
  · rwa [er, es]

end Key

end Signet
