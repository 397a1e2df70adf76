import Signet.Curve.Basic
import Signet.Proofs.Modular.Residue
import Mathlib.AlgebraicGeometry.EllipticCurve.Affine.Point

/-!
# The group of a curve

The points of a curve without singular points are an abelian group under the chord and tangent law. The group laws
come from the group of the Weierstrass curve with the same coefficients over the field of residues.
-/

namespace Signet.Curve

/-- The curves over prime fields of odd characteristic without singular points. -/
class IsElliptic (C : Curve) : Prop where
  prime : C.p.Prime
  odd : C.p ≠ 2
  nonsingular : (4 * C.a ^ 3 + 27 * C.b ^ 2) % C.p ≠ 0

/-- A point lies on a curve if it is at infinity or has reduced coordinates that solve the equation. -/
def Lies (C : Curve) : Point → Prop
  | .infinity => True
  | .affine x y => C.contains x y = true

@[ext] structure Group (C : Curve) where
  point : Point
  lies : C.Lies point
deriving DecidableEq

attribute [coe] Group.point

instance (C : Curve) : CoeOut C.Group Point := ⟨Group.point⟩

section Elliptic

variable (C : Curve) [C.IsElliptic]

instance factPrime : Fact C.p.Prime := ⟨IsElliptic.prime⟩

/-- The curve over the field of residues. -/
def weierstrass : WeierstrassCurve.Affine (ZMod C.p) := ⟨0, 0, 0, C.a, C.b⟩

variable {C}

theorem two_ne_zero : (2 : ZMod C.p) ≠ 0 := by
  have h : ((2 : Nat) : ZMod C.p) ≠ 0 := by
    rw [Ne, ZMod.natCast_eq_zero_iff, Nat.dvd_prime Nat.prime_two]
    have h1 := (IsElliptic.prime : C.p.Prime).ne_one
    have h2 := IsElliptic.odd (C := C)
    omega
  simpa using h

theorem cast_rhs (x : Nat) : ((C.rhs x : Nat) : ZMod C.p) = (x : ZMod C.p) ^ 3 + C.a * x + C.b := by
  simp only [rhs, ZMod.natCast_mod, Nat.cast_add, Nat.cast_mul]
  ring

theorem contains_iff {x y : Nat} :
    C.contains x y = true ↔
      x < C.p ∧ y < C.p ∧ (y : ZMod C.p) ^ 2 = (x : ZMod C.p) ^ 3 + C.a * x + C.b := by
  have hl : ((y * y % C.p : Nat) : ZMod C.p) = (y : ZMod C.p) ^ 2 := by
    rw [ZMod.natCast_mod, Nat.cast_mul, pow_two]
  have hp : 0 < C.p := (IsElliptic.prime : C.p.Prime).pos
  simp only [contains, Bool.and_eq_true, decide_eq_true_eq, beq_iff_eq, and_assoc]
  refine and_congr_right fun _ => and_congr_right fun _ => ⟨fun h => ?_, fun h => ?_⟩
  · rw [← hl, ← cast_rhs, h]
  · rw [← hl, ← cast_rhs] at h
    exact Modular.eq_of_cast_eq (Nat.mod_lt _ hp) (Nat.mod_lt _ hp) h

theorem equation_iff {x y : ZMod C.p} : C.weierstrass.Equation x y ↔ y ^ 2 = x ^ 3 + C.a * x + C.b := by
  rw [WeierstrassCurve.Affine.equation_iff]
  simp [weierstrass]

theorem nonsingular_iff {x y : ZMod C.p} :
    C.weierstrass.Nonsingular x y ↔ y ^ 2 = x ^ 3 + C.a * x + C.b := by
  have hd : C.weierstrass.Δ ≠ 0 := by
    have h : ((4 * C.a ^ 3 + 27 * C.b ^ 2 : Nat) : ZMod C.p) ≠ 0 := by
      rw [Ne, ZMod.natCast_eq_zero_iff]
      exact fun h => IsElliptic.nonsingular (C := C) (Nat.mod_eq_zero_of_dvd h)
    push_cast at h
    have e : C.weierstrass.Δ = -2 ^ 4 * (4 * (C.a : ZMod C.p) ^ 3 + 27 * (C.b : ZMod C.p) ^ 2) := by
      simp only [WeierstrassCurve.Δ, WeierstrassCurve.b₂, WeierstrassCurve.b₄, WeierstrassCurve.b₆,
        WeierstrassCurve.b₈, weierstrass]
      ring
    rw [e]
    exact mul_ne_zero (neg_ne_zero.mpr (pow_ne_zero 4 two_ne_zero)) h
  rw [← WeierstrassCurve.Affine.equation_iff_nonsingular_of_Δ_ne_zero hd, equation_iff]

def toWeierstrass : C.Group → C.weierstrass.Point
  | ⟨.infinity, _⟩ => .zero
  | ⟨.affine x y, h⟩ => .some x y (nonsingular_iff.mpr (contains_iff.mp h).2.2)

def ofWeierstrass : C.weierstrass.Point → C.Group
  | .zero => ⟨.infinity, trivial⟩
  | .some x y h =>
    ⟨.affine x.val y.val, contains_iff.mpr ⟨x.val_lt, y.val_lt, by simpa using nonsingular_iff.mp h⟩⟩

variable (C) in
/-- The points of a curve are those of the Weierstrass curve. -/
def equivWeierstrass : C.Group ≃ C.weierstrass.Point where
  toFun := toWeierstrass
  invFun := ofWeierstrass
  left_inv P := by
    match P with
    | ⟨.infinity, _⟩ => rfl
    | ⟨.affine x y, h⟩ =>
      obtain ⟨hx, hy, -⟩ := contains_iff.mp h
      simp only [toWeierstrass, ofWeierstrass, Modular.val_cast_of_lt hx, Modular.val_cast_of_lt hy]
  right_inv P := by
    cases P with
    | zero => rfl
    | some x y h => simp [toWeierstrass, ofWeierstrass]

instance : AddCommGroup C.Group := (equivWeierstrass C).addCommGroup

theorem toWeierstrass_add (P Q : C.Group) : toWeierstrass (P + Q) = toWeierstrass P + toWeierstrass Q :=
  (equivWeierstrass C).apply_symm_apply _

theorem toWeierstrass_injective : Function.Injective (toWeierstrass (C := C)) := (equivWeierstrass C).injective

@[simp] theorem coe_zero : ((0 : C.Group) : Point) = .infinity := rfl

theorem coe_eq_infinity_iff {P : C.Group} : (P : Point) = .infinity ↔ P = 0 := ⟨fun h => Group.ext h, fun h => h ▸ rfl⟩

/-! ## Sums -/

/-- Reduced coordinates stand for the point of the Weierstrass curve with the same residues. -/
theorem lies_of_cast {x y : Nat} {X Y : ZMod C.p} (hx : x < C.p) (hy : y < C.p) (hX : (x : ZMod C.p) = X)
    (hY : (y : ZMod C.p) = Y) (h : C.weierstrass.Nonsingular X Y) :
    ∃ hl : C.Lies (.affine x y), toWeierstrass ⟨.affine x y, hl⟩ = .some X Y h := by
  subst hX hY
  exact ⟨contains_iff.mpr ⟨hx, hy, nonsingular_iff.mp h⟩, rfl⟩

theorem lineSum_spec {l x₁ y₁ x₂ y₂ : Nat} (h₁ : C.weierstrass.Nonsingular x₁ y₁)
    (h₂ : C.weierstrass.Nonsingular x₂ y₂)
    (hne : ¬((x₁ : ZMod C.p) = x₂ ∧ (y₁ : ZMod C.p) = C.weierstrass.negY x₂ y₂))
    (hl : (l : ZMod C.p) = C.weierstrass.slope x₁ x₂ y₁ y₂) :
    ∃ h : C.Lies (C.lineSum l x₁ y₁ x₂),
      toWeierstrass ⟨C.lineSum l x₁ y₁ x₂, h⟩ = .some _ _ h₁ + .some _ _ h₂ := by
  rw [WeierstrassCurve.Affine.Point.add_some hne]
  refine lies_of_cast (Modular.sub_lt _ _) (Modular.sub_lt _ _) ?_ ?_ _
  · simp only [Modular.cast_sub, Nat.cast_mul, hl, WeierstrassCurve.Affine.addX, weierstrass]
    ring
  · simp only [Modular.cast_sub, Nat.cast_mul, hl, WeierstrassCurve.Affine.addY, WeierstrassCurve.Affine.negY,
      WeierstrassCurve.Affine.negAddY, WeierstrassCurve.Affine.addX, weierstrass]
    ring

theorem negY_eq (x y : ZMod C.p) : C.weierstrass.negY x y = -y := by
  simp [WeierstrassCurve.Affine.negY, weierstrass]

theorem cast_ne_zero {y : Nat} (hy : y < C.p) (h0 : y ≠ 0) : (y : ZMod C.p) ≠ 0 := by
  intro h
  exact h0 (Modular.eq_of_cast_eq hy (by omega) (by simpa using h))

theorem cast_eq_or_eq_neg {x y y' : Nat} (h : C.contains x y = true) (h' : C.contains x y' = true) :
    y = y' ∨ (y : ZMod C.p) = -y' := by
  obtain ⟨-, hy, e⟩ := contains_iff.mp h
  obtain ⟨-, hy', e'⟩ := contains_iff.mp h'
  rcases sq_eq_sq_iff_eq_or_eq_neg.mp (e.trans e'.symm) with hs | hs
  · exact .inl (Modular.eq_of_cast_eq hy hy' hs)
  · exact .inr hs

theorem tangent_spec {x y : Nat} (h : C.Lies (.affine x y)) (h0 : y ≠ 0) :
    ∃ hl : C.Lies (C.add (.affine x y) (.affine x y)),
      toWeierstrass ⟨_, hl⟩ = toWeierstrass ⟨_, h⟩ + toWeierstrass ⟨_, h⟩ := by
  obtain ⟨-, hy, e⟩ := contains_iff.mp h
  have n := nonsingular_iff.mpr e
  have hne : (y : ZMod C.p) ≠ C.weierstrass.negY x y := by
    rw [negY_eq, Ne, eq_neg_iff_add_eq_zero, ← two_mul]
    exact mul_ne_zero two_ne_zero (cast_ne_zero hy h0)
  have hslope : (((3 * x * x + C.a) * Modular.inv C.p (2 * y) : Nat) : ZMod C.p) = C.weierstrass.slope x x y y := by
    rw [WeierstrassCurve.Affine.slope_of_Y_ne rfl hne, negY_eq]
    simp only [Nat.cast_mul, Nat.cast_add, Modular.cast_inv IsElliptic.odd, Nat.cast_ofNat, weierstrass]
    rw [div_eq_mul_inv]
    ring
  simp only [add, if_true, h0, ne_eq, not_false_eq_true, and_self]
  exact lineSum_spec n n (fun h => hne h.2) hslope

theorem opposite_spec {x y y' : Nat} (h : C.Lies (.affine x y)) (h' : C.Lies (.affine x y'))
    (hne : ¬(y = y' ∧ y ≠ 0)) :
    ∃ hl : C.Lies (C.add (.affine x y) (.affine x y')),
      toWeierstrass ⟨_, hl⟩ = toWeierstrass ⟨_, h⟩ + toWeierstrass ⟨_, h'⟩ := by
  have hs : (y : ZMod C.p) = -y' := by
    rcases cast_eq_or_eq_neg h h' with rfl | hs
    · have h0 : y = 0 := by tauto
      simp [h0]
    · exact hs
  have hadd : C.add (.affine x y) (.affine x y') = .infinity := by simp [add, hne]
  refine ⟨by simp [hadd, Lies], ?_⟩
  simp only [hadd]
  exact (WeierstrassCurve.Affine.Point.add_of_Y_eq rfl (by rw [negY_eq, hs])).symm

theorem chord_spec {x y x' y' : Nat} (h : C.Lies (.affine x y)) (h' : C.Lies (.affine x' y')) (hne : x ≠ x') :
    ∃ hl : C.Lies (C.add (.affine x y) (.affine x' y')),
      toWeierstrass ⟨_, hl⟩ = toWeierstrass ⟨_, h⟩ + toWeierstrass ⟨_, h'⟩ := by
  obtain ⟨hx, -, e⟩ := contains_iff.mp h
  obtain ⟨hx', -, e'⟩ := contains_iff.mp h'
  have hX : (x : ZMod C.p) ≠ x' := fun h => hne (Modular.eq_of_cast_eq hx hx' h)
  have hslope : ((Modular.sub C.p y y' * Modular.inv C.p (Modular.sub C.p x x') : Nat) : ZMod C.p)
      = C.weierstrass.slope x x' y y' := by
    rw [WeierstrassCurve.Affine.slope_of_X_ne hX]
    simp only [Nat.cast_mul, Modular.cast_sub, Modular.cast_inv IsElliptic.odd]
    rw [div_eq_mul_inv]
  simp only [add, hne, if_false]
  exact lineSum_spec (nonsingular_iff.mpr e) (nonsingular_iff.mpr e') (fun h => hX h.1) hslope

/-- The chord and tangent law is that of the Weierstrass curve. -/
theorem add_spec (P Q : C.Group) :
    ∃ h : C.Lies (C.add P Q), toWeierstrass ⟨C.add P Q, h⟩ = toWeierstrass P + toWeierstrass Q := by
  match P, Q with
  | ⟨.infinity, _⟩, ⟨Q, hQ⟩ => exact ⟨by simpa [add] using hQ, (zero_add _).symm⟩
  | ⟨.affine x y, hP⟩, ⟨.infinity, _⟩ => exact ⟨by simpa [add] using hP, (add_zero _).symm⟩
  | ⟨.affine x₁ y₁, hP⟩, ⟨.affine x₂ y₂, hQ⟩ =>
    by_cases hx : x₁ = x₂
    · subst hx
      by_cases hy : y₁ = y₂ ∧ y₁ ≠ 0
      · obtain ⟨rfl, h0⟩ := hy
        exact tangent_spec hP h0
      · exact opposite_spec hP hQ hy
    · exact chord_spec hP hQ hx

@[simp] theorem coe_add (P Q : C.Group) : ((P + Q : C.Group) : Point) = C.add P Q := by
  obtain ⟨h, e⟩ := add_spec P Q
  rw [← toWeierstrass_add] at e
  exact congrArg Group.point (toWeierstrass_injective e).symm

@[simp] theorem coe_neg (P : C.Group) : ((-P : C.Group) : Point) = C.neg P := by
  have h : ∀ Q : C.Group, (Q : Point) = C.neg P → -P = Q := by
    intro Q hQ
    refine neg_eq_of_add_eq_zero_right (Group.ext ?_)
    rw [coe_add, hQ, coe_zero]
    match P with
    | ⟨.infinity, _⟩ => rfl
    | ⟨.affine x y, h⟩ =>
      obtain ⟨hx, hy, -⟩ := contains_iff.mp h
      have : ¬(y = Modular.neg C.p y ∧ y ≠ 0) := by
        rintro ⟨h1, h2⟩
        have h3 : (y : ZMod C.p) = -y := by rw [← Modular.cast_neg, ← h1]
        rw [eq_neg_iff_add_eq_zero, ← two_mul, mul_eq_zero, or_iff_right two_ne_zero] at h3
        exact cast_ne_zero hy h2 h3
      simp [Curve.add, Curve.neg, this]
  match P, h with
  | ⟨.infinity, _⟩, h => exact congrArg Group.point (h 0 rfl)
  | ⟨.affine x y, hP⟩, h =>
    obtain ⟨hx, hy, e⟩ := contains_iff.mp hP
    refine congrArg Group.point (h ⟨.affine x (Modular.neg C.p y), contains_iff.mpr ⟨hx, Modular.neg_lt _, ?_⟩⟩ rfl)
    rw [Modular.cast_neg, neg_sq, e]

end Elliptic

end Signet.Curve
