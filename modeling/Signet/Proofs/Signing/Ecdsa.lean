import Signet.Signing.Ecdsa
import Signet.Proofs.Curve.Order

/-!
# The ephemeral point of a signature

The numbers of a signature and the digest tell which ephemeral point it was made with. Verification compares the first
coordinate of this point with the number `r`; signing makes it the multiple of the base point by the nonce.
-/

namespace Signet.Signing.Ecdsa

open Curve

variable {C : Curve} [C.HasPrimeOrder]

/-- The ephemeral point that a signature `(r, s)` of the digest `e` under the public key `Q` asks for. -/
def ephemeral (Q : C.Group) (e r s : Nat) : C.Group := (s : ZMod C.n)⁻¹ • (e • generator C + r • Q)

theorem mulAdd_inv (h2 : C.n ≠ 2) (Q : C.Group) (e r s : Nat) :
    C.mulAdd (e * Modular.inv C.n s % C.n) (r * Modular.inv C.n s % C.n) Q = (ephemeral Q e r s : Point) := by
  have hw : ∀ (k : Nat) (P : C.Group), (k * Modular.inv C.n s % C.n) • P = (s : ZMod C.n)⁻¹ • k • P := by
    intro k P
    rw [mod_nsmul, Nat.mul_comm, mul_nsmul', ← cast_smul (Modular.inv C.n s), Modular.cast_inv h2]
  rw [mulAdd_eq (G := generator C) rfl, hw, hw, ← smul_add, ephemeral]

theorem verify_iff (h2 : C.n ≠ 2) (Q : C.Group) (e r s : Nat) :
    verify C Q e r s = true ↔ (ephemeral Q e r s : Point).x % C.n = r := by
  simp only [verify, mulAdd_inv h2, beq_iff_eq]

/-- The textbook equation, with quotients of scalars. -/
def Equation (Q : C.Group) (e r s : Nat) : Prop :=
  ((e / s : ZMod C.n) • generator C + (r / s : ZMod C.n) • Q).point.x % C.n = r

theorem verify_mod_iff (h2 : C.n ≠ 2) (Q : C.Group) (e r s : Nat) :
    verify C Q (e % C.n) r s = true ↔ Equation Q e r s := by
  have hpoint : ephemeral Q (e % C.n) r s = (e / s : ZMod C.n) • generator C + (r / s : ZMod C.n) • Q := by
    rw [ephemeral, mod_nsmul, smul_add, ← cast_smul e, ← cast_smul r, smul_smul, smul_smul, inv_mul_eq_div,
      inv_mul_eq_div]
  rw [verify_iff h2, hpoint, Equation]

/-- The numbers of a new signature ask for the point that they were made with. -/
theorem ephemeral_of_sign? (h2 : C.n ≠ 2) {d e k r s : Nat} {R : Point} (h : sign? C d e k R = some (r, s))
    (hk : (k : ZMod C.n) ≠ 0) : ephemeral (d • generator C) e r s = k • generator C := by
  simp only [sign?, Option.ite_none_left_eq_some, not_or, Option.some.injEq, Prod.mk.injEq] at h
  obtain ⟨⟨-, hs⟩, rfl, rfl⟩ := h
  -- The equation that defines `s`, in the field of scalars.
  have hks : (k : ZMod C.n)⁻¹ * (e + (R.x % C.n : Nat) * d) ≠ 0 := by
    rw [← Modular.cast_inv h2, ← Nat.cast_mul, ← Nat.cast_add, ← Nat.cast_mul, Ne, ZMod.natCast_eq_zero_iff,
      Nat.dvd_iff_mod_eq_zero]
    exact hs
  have he := right_ne_zero_of_mul hks
  rw [ephemeral, ZMod.natCast_mod, Nat.cast_mul, Modular.cast_inv h2, Nat.cast_add, Nat.cast_mul, ← cast_smul e,
    ← cast_smul (R.x % C.n), ← cast_smul d, smul_smul, ← add_smul, smul_smul, ← cast_smul k]
  congr 1
  field_simp

theorem range_of_sign? {d e k r s : Nat} {R : Point} (h : sign? C d e k R = some (r, s)) :
    r = R.x % C.n ∧ (1 ≤ r ∧ r < C.n) ∧ (1 ≤ s ∧ s < C.n) := by
  have hn : 0 < C.n := (HasPrimeOrder.prime_n (C := C)).pos
  simp only [sign?, Option.ite_none_left_eq_some, not_or, Option.some.injEq, Prod.mk.injEq] at h
  obtain ⟨⟨hr, hs⟩, rfl, rfl⟩ := h
  exact ⟨rfl, ⟨Nat.pos_of_ne_zero hr, Nat.mod_lt _ hn⟩, Nat.pos_of_ne_zero hs, Nat.mod_lt _ hn⟩

/-- The numbers of a new signature are accepted under the public key. -/
theorem verify_of_sign? (h2 : C.n ≠ 2) {d e k r s : Nat} (h : sign? C d e k (C.mul k C.base) = some (r, s))
    (hk : 1 ≤ k ∧ k < C.n) : verify C (d • generator C : C.Group) e r s = true := by
  have hk0 : (k : ZMod C.n) ≠ 0 := by
    rw [Ne, ZMod.natCast_eq_zero_iff]
    exact Nat.not_dvd_of_pos_of_lt hk.1 hk.2
  have hR : C.mul k C.base = (k • generator C : C.Group) := mul_eq k (generator C)
  rw [verify_iff h2, ephemeral_of_sign? h2 h hk0, ← hR]
  exact (range_of_sign? h).1.symm

end Signet.Signing.Ecdsa
