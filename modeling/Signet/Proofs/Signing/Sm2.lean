import Signet.Signing.Sm2
import Signet.Proofs.Curve.Order

/-!
# New SM2 signatures satisfy their equation

Verification finds the multiple of the base point by the nonce again. It refuses numbers whose sum is 0, and this sum is
0 exactly in the degenerate case that signing has refused before.
-/

namespace Signet.Signing.Sm2

open Curve

variable {C : Curve} [C.HasPrimeOrder] {d e k r s : Nat}

/-- The textbook equation. -/
def Equation (Q : C.Group) (e r s : Nat) : Prop :=
  let t := (r + s) % C.n
  t ≠ 0 ∧ (e + (s • generator C + t • Q).point.x) % C.n = r

theorem verify_mod_iff (Q : C.Group) (e r s : Nat) : verify C Q (e % C.n) r s = true ↔ Equation Q e r s := by
  simp only [verify, mulAdd_eq (G := generator C) rfl, Nat.mod_add_mod, Bool.and_eq_true, bne_iff_ne, beq_iff_eq,
    Equation]

theorem range_of_sign? (h : sign? C d e k = some (r, s)) :
    r = (e + (C.mul k C.base).x) % C.n ∧ (1 ≤ r ∧ r < C.n) ∧ (1 ≤ s ∧ s < C.n) := by
  have hn : 0 < C.n := (HasPrimeOrder.prime_n (C := C)).pos
  simp only [sign?, Option.ite_none_left_eq_some, not_or, Option.some.injEq, Prod.mk.injEq] at h
  obtain ⟨⟨hr, -, -, hs⟩, rfl, rfl⟩ := h
  exact ⟨rfl, ⟨Nat.pos_of_ne_zero hr, Nat.mod_lt _ hn⟩, Nat.pos_of_ne_zero hs, Nat.mod_lt _ hn⟩

/-- The cases that are refused: `1 + d` and `r + k` are not 0. -/
theorem ne_zero_of_sign? (h : sign? C d e k = some (r, s)) :
    (1 + d : ZMod C.n) ≠ 0 ∧ (r + k : ZMod C.n) ≠ 0 := by
  simp only [sign?, Option.ite_none_left_eq_some, not_or, Option.some.injEq, Prod.mk.injEq] at h
  obtain ⟨⟨-, hk, hd, -⟩, rfl, -⟩ := h
  rw [← Nat.dvd_iff_mod_eq_zero, ← ZMod.natCast_eq_zero_iff, Nat.cast_add] at hk hd
  rw [Nat.cast_one] at hd
  exact ⟨hd, hk⟩

/-- The equation that defines `s`, in the field of scalars. -/
theorem mul_eq_of_sign? (h2 : C.n ≠ 2) (h : sign? C d e k = some (r, s)) :
    (1 + d : ZMod C.n) * s = k - r * d := by
  have hd := (ne_zero_of_sign? h).1
  simp only [sign?, Option.ite_none_left_eq_some, Option.some.injEq, Prod.mk.injEq] at h
  obtain ⟨-, rfl, rfl⟩ := h
  rw [ZMod.natCast_mod, Nat.cast_mul, Modular.cast_inv h2, Modular.cast_sub, Nat.cast_mul, Nat.cast_add, Nat.cast_one,
    mul_inv_cancel_left₀ hd]

theorem mul_add_eq_of_sign? (h2 : C.n ≠ 2) (h : sign? C d e k = some (r, s)) :
    (1 + d : ZMod C.n) * (r + s) = r + k := by
  rw [mul_add, mul_eq_of_sign? h2 h]
  ring

/-- The sum of the two numbers is not 0, because `r + k` is not. -/
theorem add_ne_zero_of_sign? (h2 : C.n ≠ 2) (h : sign? C d e k = some (r, s)) : (r + s) % C.n ≠ 0 := by
  obtain ⟨-, hk⟩ := ne_zero_of_sign? h
  rw [← mul_add_eq_of_sign? h2 h] at hk
  have hrs := right_ne_zero_of_mul hk
  rwa [← Nat.cast_add, Ne, ZMod.natCast_eq_zero_iff, Nat.dvd_iff_mod_eq_zero] at hrs

/-- The point that verification computes is the multiple of the base point by the nonce. -/
theorem mulAdd_of_sign? (h2 : C.n ≠ 2) (h : sign? C d e k = some (r, s)) :
    C.mulAdd s ((r + s) % C.n) (d • generator C : C.Group) = C.mul k C.base := by
  have hscalar : (s : ZMod C.n) + (r + s) * d = k := by
    linear_combination mul_eq_of_sign? h2 h
  have hpoint : s • generator C + ((r + s) % C.n) • d • generator C = k • generator C := by
    rw [mod_nsmul, ← cast_smul s, ← cast_smul (r + s), ← cast_smul d, ← cast_smul k, smul_smul, ← add_smul,
      Nat.cast_add, hscalar]
  rw [mulAdd_eq (G := generator C) rfl, hpoint]
  exact (mul_eq k (generator C)).symm

/-- The numbers of a new signature are accepted under the public key. -/
theorem verify_of_sign? (h2 : C.n ≠ 2) (h : sign? C d e k = some (r, s)) :
    verify C (d • generator C : C.Group) e r s = true := by
  obtain ⟨hr, -, -⟩ := range_of_sign? h
  simp only [verify, mulAdd_of_sign? h2 h, ← hr, Bool.and_eq_true, bne_iff_ne, beq_iff_eq]
  exact ⟨add_ne_zero_of_sign? h2 h, trivial⟩

end Signet.Signing.Sm2
