import Signet.Key.Signing
import Signet.Proofs.Key.Validity
import Signet.Proofs.Signature
import Signet.Proofs.Signing.Ecdsa

/-!
# The nonce of a rich signature

Signing with random nonces keeps the first one that gives nonzero numbers. This nonce decides the numbers and the
ephemeral point of the signature.
-/

namespace Signet.Key

open Curve

/-- The nonce that is kept: the first one in the stream that gives nonzero numbers. -/
def richNonce? (d e : Nat) (entropy : Entropy) : Option Nat :=
  match _h : entropy.drawScalar? p256.n with
  | none => none
  | some (k, rest) =>
    if (Signing.Ecdsa.sign? p256 d e k (p256.mul k p256.base)).isSome then some k else richNonce? d e rest
termination_by entropy.length
decreasing_by exact Entropy.length_lt_of_drawScalar? ‹entropy.drawScalar? p256.n = some (k, rest)›

theorem richNonce?_of_drawScalar? {d e k : Nat} {entropy rest : Entropy}
    (h : entropy.drawScalar? p256.n = some (k, rest)) :
    richNonce? d e entropy
      = if (Signing.Ecdsa.sign? p256 d e k (p256.mul k p256.base)).isSome then some k else richNonce? d e rest := by
  rw [richNonce?]
  split
  · next hnone =>
    rw [h] at hnone
    cases hnone
  · next hsome =>
    rw [h] at hsome
    cases hsome
    rfl

theorem ne_infinity_of_sign? {d e k r s : Nat} {R : Point} (h : Signing.Ecdsa.sign? p256 d e k R = some (r, s)) :
    R ≠ .infinity := by
  rintro rfl
  obtain ⟨hr, ⟨h1, -⟩, -⟩ := Signing.Ecdsa.range_of_sign? h
  rw [Point.x, Nat.zero_mod] at hr
  omega

/-- A rich signature is made from the nonce that is kept and its multiple of the base point. -/
theorem richSignature_eq_ok {d e : Nat} {entropy rest : Entropy} {g : Signature}
    (h : richSignature d e entropy = .ok (g, rest)) :
    ∃ k r s x y, richNonce? d e entropy = some k ∧ (1 ≤ k ∧ k < p256.n) ∧ p256.mul k p256.base = .affine x y
      ∧ Signing.Ecdsa.sign? p256 d e k (.affine x y) = some (r, s)
      ∧ g = pack r s (some (Word256.ofNat x, Word256.ofNat y)) := by
  fun_induction richSignature d e entropy with
  | case1 => cases h
  | case2 entropy k rest' hdraw R r s x y hR hsign =>
    cases h
    have hR' : p256.mul k p256.base = .affine x y := hR
    have hs : Signing.Ecdsa.sign? p256 d e k (p256.mul k p256.base) = some (r, s) := hsign
    refine ⟨k, r, s, x, y, ?_, Entropy.drawScalar?_range hdraw, hR', hR' ▸ hs, rfl⟩
    rw [richNonce?_of_drawScalar? hdraw, hs]
    rfl
  | case3 entropy k rest' hdraw R hno ih =>
    obtain ⟨k', r, s, x, y, hk', hrest⟩ := ih h
    refine ⟨k', r, s, x, y, ?_, hrest⟩
    rw [richNonce?_of_drawScalar? hdraw, if_neg, hk']
    intro hsome
    obtain ⟨⟨r', s'⟩, hs⟩ := Option.isSome_iff_exists.mp hsome
    cases hR : p256.mul k p256.base with
    | infinity => exact ne_infinity_of_sign? hs hR
    | affine x y => exact hno r' s' x y hs hR

end Signet.Key
