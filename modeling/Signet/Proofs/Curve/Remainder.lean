import Signet.Proofs.Curve.Group

/-!
# Remainders modulo the right side of the equation

Polynomials are multiplied modulo `x³ + ax + b`. Every residue is a root of `xᵖ - x`; if this polynomial has an
inverse modulo the cubic one, then the two have no root in common, and the cubic one has none.
-/

namespace Signet.Curve

/-- The polynomial `c₀ + c₁ x + c₂ x²`. -/
structure Remainder where
  c₀ : Nat
  c₁ : Nat
  c₂ : Nat
deriving DecidableEq

namespace Remainder

variable (C : Curve)

/-- The product, with the powers above the second one replaced by means of `x³ = -ax - b`. -/
def mul (f g : Remainder) : Remainder :=
  let d₃ := f.c₁ * g.c₂ + f.c₂ * g.c₁
  let d₄ := f.c₂ * g.c₂
  ⟨Modular.sub C.p (f.c₀ * g.c₀) (C.b * d₃),
    Modular.sub C.p (f.c₀ * g.c₁ + f.c₁ * g.c₀) (C.a * d₃ + C.b * d₄),
    Modular.sub C.p (f.c₀ * g.c₂ + f.c₁ * g.c₁ + f.c₂ * g.c₀) (C.a * d₄)⟩

def pow (f : Remainder) (e : Nat) : Remainder :=
  if e = 0 then ⟨1, 0, 0⟩
  else if e % 2 = 1 then mul C (pow (mul C f f) (e / 2)) f
  else pow (mul C f f) (e / 2)
termination_by e
decreasing_by all_goals omega

/-- The polynomial `xᵖ - x`. -/
def frobeniusSub : Remainder :=
  let f := pow C ⟨0, 1, 0⟩ C.p
  ⟨f.c₀, Modular.sub C.p f.c₁ 1, f.c₂⟩

variable {C} [C.IsElliptic]

def eval (f : Remainder) (x : ZMod C.p) : ZMod C.p := f.c₀ + f.c₁ * x + f.c₂ * x ^ 2

variable {x : ZMod C.p}

theorem eval_mul (hx : x ^ 3 + C.a * x + C.b = 0) (f g : Remainder) : (mul C f g).eval x = f.eval x * g.eval x := by
  have h3 : x ^ 3 = -(C.a * x + C.b) := by rw [← sub_eq_zero, ← hx]; ring
  have h4 : x ^ 4 = -(C.a * x ^ 2 + C.b * x) := by rw [pow_succ x 3, h3]; ring
  simp only [eval, mul, Modular.cast_sub, Nat.cast_add, Nat.cast_mul]
  linear_combination (-(f.c₁ * g.c₂ + f.c₂ * g.c₁ : ZMod C.p)) * h3 - (f.c₂ * g.c₂ : ZMod C.p) * h4

theorem eval_pow (hx : x ^ 3 + C.a * x + C.b = 0) (f : Remainder) (e : Nat) : (pow C f e).eval x = f.eval x ^ e := by
  induction e using Nat.strongRecOn generalizing f with
  | ind e ih =>
    rw [pow]
    by_cases h0 : e = 0
    · rw [if_pos h0, h0, pow_zero]
      simp [eval]
    · have hrec := ih (e / 2) (by omega) (mul C f f)
      rw [eval_mul hx, ← pow_two, ← pow_mul] at hrec
      rw [if_neg h0]
      by_cases h1 : e % 2 = 1
      · rw [if_pos h1, eval_mul hx, hrec, ← pow_succ]
        congr 1
        omega
      · rw [if_neg h1, hrec]
        congr 1
        omega

theorem eval_frobeniusSub (hx : x ^ 3 + C.a * x + C.b = 0) : (frobeniusSub C).eval x = 0 := by
  have h : (pow C ⟨0, 1, 0⟩ C.p).eval x = x := by
    rw [eval_pow hx]
    simp [eval]
  simp only [frobeniusSub, eval, Modular.cast_sub, Nat.cast_one] at h ⊢
  linear_combination h

end Remainder

/-- The cubic polynomial has no root if `xᵖ - x` has an inverse modulo it. -/
theorem rhs_ne_zero {C : Curve} [C.IsElliptic] {g : Remainder} (h : g.mul C (.frobeniusSub C) = ⟨1, 0, 0⟩) (x : ZMod C.p) :
    x ^ 3 + C.a * x + C.b ≠ 0 := by
  intro hx
  have e := Remainder.eval_mul hx g (.frobeniusSub C)
  rw [h, Remainder.eval_frobeniusSub hx, mul_zero] at e
  simp [Remainder.eval] at e

end Signet.Curve
