import Signet.Curve.Jacobian
import Signet.Proofs.Curve.Group

/-!
# Sums and multiples in Jacobian coordinates

The operations on triples are those of the group: a triple stands for a point of the group, and the double, the
sum and the multiples of triples stand for those of the points.
-/

namespace Signet.Curve

variable {C : Curve} [C.IsElliptic]

namespace Jacobian

/-- Whether a triple stands for a point of the Weierstrass curve. -/
def Represents (J : Jacobian) : C.weierstrass.Point → Prop
  | .zero => J.z = 0
  | .some X Y _ => J.z < C.p ∧ (J.z : ZMod C.p) ≠ 0 ∧ (J.x : ZMod C.p) = X * J.z ^ 2 ∧ (J.y : ZMod C.p) = Y * J.z ^ 3

theorem Represents.z_eq_zero_iff {J : Jacobian} {P : C.weierstrass.Point} (h : J.Represents P) :
    J.z = 0 ↔ P = 0 := by
  cases P with
  | zero => exact ⟨fun _ => rfl, fun _ => h⟩
  | some X Y n =>
    refine ⟨fun hz => absurd (by simp [hz]) h.2.1, fun hP => absurd hP ?_⟩
    exact WeierstrassCurve.Affine.Point.some_ne_zero n

theorem represents_infinity : infinity.Represents (0 : C.weierstrass.Point) := rfl

theorem represents_ofPoint (P : C.Group) : (ofPoint P).Represents (toWeierstrass P) := by
  obtain ⟨_ | ⟨x, y⟩, h⟩ := P
  · rfl
  · exact ⟨(IsElliptic.prime : C.p.Prime).one_lt, by simp [ofPoint], by simp [ofPoint]⟩

theorem toPoint_eq {J : Jacobian} {P : C.Group} (h : J.Represents (toWeierstrass P)) : J.toPoint C = P := by
  obtain ⟨_ | ⟨x, y⟩, hP⟩ := P
  · exact if_pos h
  · obtain ⟨-, hz, hX, hY⟩ := h
    obtain ⟨hx, hy, -⟩ := contains_iff.mp hP
    have hp : 0 < C.p := (IsElliptic.prime : C.p.Prime).pos
    have hz0 : J.z ≠ 0 := fun h0 => hz (by simp [h0])
    have ex : J.x * (Modular.inv C.p J.z * Modular.inv C.p J.z % C.p) % C.p = x := by
      refine Modular.eq_of_cast_eq (Nat.mod_lt _ hp) hx ?_
      simp only [ZMod.natCast_mod, Nat.cast_mul, Modular.cast_inv IsElliptic.odd, hX]
      field_simp
    have ey : J.y * (Modular.inv C.p J.z * Modular.inv C.p J.z % C.p * Modular.inv C.p J.z % C.p) % C.p = y := by
      refine Modular.eq_of_cast_eq (Nat.mod_lt _ hp) hy ?_
      simp only [ZMod.natCast_mod, Nat.cast_mul, Modular.cast_inv IsElliptic.odd, hY]
      field_simp
    simp only [toPoint, if_neg hz0, ex, ey]

theorem mod_eq_zero_iff {n : Nat} : n % C.p = 0 ↔ (n : ZMod C.p) = 0 := by
  rw [ZMod.natCast_eq_zero_iff, Nat.dvd_iff_mod_eq_zero]

/-- The tangent formulas on a triple with a second coordinate other than 0. -/
theorem represents_tangent {J : Jacobian} {X Y : ZMod C.p} {n : C.weierstrass.Nonsingular X Y}
    (h : J.Represents (.some X Y n)) (hy : Y ≠ C.weierstrass.negY X Y) (hY0 : Y ≠ 0) :
    (double C J).Represents (WeierstrassCurve.Affine.Point.some X Y n + .some X Y n) := by
  have hp : 0 < C.p := (IsElliptic.prime : C.p.Prime).pos
  have h2 : (2 : ZMod C.p) ≠ 0 := two_ne_zero
  obtain ⟨-, hz, hx₁, hy₁⟩ := h
  rw [WeierstrassCurve.Affine.Point.add_self_of_Y_ne hy]
  refine ⟨Nat.mod_lt _ hp, ?_, ?_, ?_⟩
  · simp only [double, ZMod.natCast_mod, Nat.cast_mul, Nat.cast_ofNat, hy₁]
    exact mul_ne_zero (mul_ne_zero h2 (mul_ne_zero hY0 (pow_ne_zero 3 hz))) hz
  · rw [WeierstrassCurve.Affine.slope_of_Y_ne rfl hy, negY_eq]
    simp only [double, ZMod.natCast_mod, Nat.cast_mul, Nat.cast_ofNat, Nat.cast_add, Modular.cast_sub, hx₁, hy₁,
      WeierstrassCurve.Affine.addX, weierstrass]
    rw [sub_neg_eq_add, ← two_mul]
    field_simp
    ring
  · rw [WeierstrassCurve.Affine.slope_of_Y_ne rfl hy, negY_eq]
    simp only [double, ZMod.natCast_mod, Nat.cast_mul, Nat.cast_ofNat, Nat.cast_add, Modular.cast_sub, hx₁, hy₁,
      WeierstrassCurve.Affine.addY, WeierstrassCurve.Affine.negAddY, WeierstrassCurve.Affine.addX,
      WeierstrassCurve.Affine.negY, weierstrass]
    rw [sub_neg_eq_add, ← two_mul]
    field_simp
    ring

theorem represents_double {J : Jacobian} {P : C.weierstrass.Point} (h : J.Represents P) :
    (double C J).Represents (P + P) := by
  cases P with
  | zero =>
    have hz : J.z = 0 := h
    show 2 * J.y * J.z % C.p = 0
    simp [hz]
  | some X Y n =>
    by_cases hy : Y = C.weierstrass.negY X Y
    · have hY0 : Y = 0 := by
        rw [negY_eq, eq_neg_iff_add_eq_zero, ← two_mul, mul_eq_zero, or_iff_right two_ne_zero] at hy
        exact hy
      rw [WeierstrassCurve.Affine.Point.add_self_of_Y_eq hy]
      show 2 * J.y * J.z % C.p = 0
      rw [mod_eq_zero_iff]
      simp [h.2.2.2, hY0]
    · refine represents_tangent h hy ?_
      rintro rfl
      exact hy (by rw [negY_eq, neg_zero])

/-- The chord formulas on triples with different first coordinates. -/
theorem represents_chord {J K : Jacobian} {X₁ Y₁ X₂ Y₂ : ZMod C.p} {n₁ : C.weierstrass.Nonsingular X₁ Y₁}
    {n₂ : C.weierstrass.Nonsingular X₂ Y₂} (hJ : J.Represents (.some X₁ Y₁ n₁)) (hK : K.Represents (.some X₂ Y₂ n₂))
    (hJ0 : J.z ≠ 0) (hK0 : K.z ≠ 0) (hX : X₁ ≠ X₂)
    (hu : J.x * (K.z * K.z % C.p) % C.p ≠ K.x * (J.z * J.z % C.p) % C.p) :
    (add C J K).Represents (WeierstrassCurve.Affine.Point.some X₁ Y₁ n₁ + .some X₂ Y₂ n₂) := by
  have hp : 0 < C.p := (IsElliptic.prime : C.p.Prime).pos
  obtain ⟨-, hz₁, hx₁, hy₁⟩ := hJ
  obtain ⟨-, hz₂, hx₂, hy₂⟩ := hK
  have hd : X₁ - X₂ ≠ 0 := sub_ne_zero.mpr hX
  rw [WeierstrassCurve.Affine.Point.add_of_X_ne hX]
  simp only [add, if_neg hJ0, if_neg hK0, if_neg hu]
  refine ⟨Nat.mod_lt _ hp, ?_, ?_, ?_⟩
  · simp only [ZMod.natCast_mod, Nat.cast_mul, Modular.cast_sub, hx₁, hx₂]
    have e : X₂ * (K.z : ZMod C.p) ^ 2 * (J.z * J.z) - X₁ * (J.z : ZMod C.p) ^ 2 * (K.z * K.z)
        = -((X₁ - X₂) * (J.z * K.z) ^ 2) := by ring
    rw [e]
    exact mul_ne_zero (mul_ne_zero hz₁ hz₂) (neg_ne_zero.mpr (mul_ne_zero hd (pow_ne_zero 2 (mul_ne_zero hz₁ hz₂))))
  · rw [WeierstrassCurve.Affine.slope_of_X_ne hX]
    simp only [ZMod.natCast_mod, Nat.cast_mul, Nat.cast_ofNat, Modular.cast_sub, hx₁, hx₂, hy₁, hy₂,
      WeierstrassCurve.Affine.addX, weierstrass]
    field_simp
    ring
  · rw [WeierstrassCurve.Affine.slope_of_X_ne hX]
    simp only [ZMod.natCast_mod, Nat.cast_mul, Nat.cast_ofNat, Modular.cast_sub, hx₁, hx₂, hy₁, hy₂,
      WeierstrassCurve.Affine.addY, WeierstrassCurve.Affine.negAddY, WeierstrassCurve.Affine.addX,
      WeierstrassCurve.Affine.negY, weierstrass]
    field_simp
    ring

/-- The cross products of the first coordinates are equal as reduced numbers if these coordinates are equal. -/
theorem cross_x_eq_iff {J K : Jacobian} {X₁ Y₁ X₂ Y₂ : ZMod C.p} {n₁ : C.weierstrass.Nonsingular X₁ Y₁}
    {n₂ : C.weierstrass.Nonsingular X₂ Y₂} (hJ : J.Represents (.some X₁ Y₁ n₁)) (hK : K.Represents (.some X₂ Y₂ n₂)) :
    J.x * (K.z * K.z % C.p) % C.p = K.x * (J.z * J.z % C.p) % C.p ↔ X₁ = X₂ := by
  obtain ⟨-, hz₁, hx₁, -⟩ := hJ
  obtain ⟨-, hz₂, hx₂, -⟩ := hK
  rw [← ZMod.natCast_eq_natCast_iff']
  simp only [Nat.cast_mul, ZMod.natCast_mod, hx₁, hx₂]
  rw [show X₂ * (K.z : ZMod C.p) ^ 2 * (J.z * J.z) = X₂ * (J.z * K.z) ^ 2 by ring,
    show X₁ * (J.z : ZMod C.p) ^ 2 * (K.z * K.z) = X₁ * (J.z * K.z) ^ 2 by ring]
  exact mul_left_inj' (pow_ne_zero 2 (mul_ne_zero hz₁ hz₂))

theorem cross_y_eq_iff {J K : Jacobian} {X₁ Y₁ X₂ Y₂ : ZMod C.p} {n₁ : C.weierstrass.Nonsingular X₁ Y₁}
    {n₂ : C.weierstrass.Nonsingular X₂ Y₂} (hJ : J.Represents (.some X₁ Y₁ n₁)) (hK : K.Represents (.some X₂ Y₂ n₂)) :
    J.y * (K.z * K.z % C.p * K.z % C.p) % C.p = K.y * (J.z * J.z % C.p * J.z % C.p) % C.p ↔ Y₁ = Y₂ := by
  obtain ⟨-, hz₁, -, hy₁⟩ := hJ
  obtain ⟨-, hz₂, -, hy₂⟩ := hK
  rw [← ZMod.natCast_eq_natCast_iff']
  simp only [Nat.cast_mul, ZMod.natCast_mod, hy₁, hy₂]
  rw [show Y₂ * (K.z : ZMod C.p) ^ 3 * (J.z * J.z * J.z) = Y₂ * (J.z * K.z) ^ 3 by ring,
    show Y₁ * (J.z : ZMod C.p) ^ 3 * (K.z * K.z * K.z) = Y₁ * (J.z * K.z) ^ 3 by ring]
  exact mul_left_inj' (pow_ne_zero 3 (mul_ne_zero hz₁ hz₂))

theorem represents_add {J K : Jacobian} {P Q : C.weierstrass.Point} (hJ : J.Represents P) (hK : K.Represents Q) :
    (add C J K).Represents (P + Q) := by
  by_cases hJ0 : J.z = 0
  · rw [hJ.z_eq_zero_iff.mp hJ0, zero_add]
    simpa only [add, if_pos hJ0] using hK
  by_cases hK0 : K.z = 0
  · rw [hK.z_eq_zero_iff.mp hK0, add_zero]
    simpa only [add, if_neg hJ0, if_pos hK0] using hJ
  cases P with
  | zero => exact absurd hJ hJ0
  | some X₁ Y₁ n₁ =>
    cases Q with
    | zero => exact absurd hK hK0
    | some X₂ Y₂ n₂ =>
      have hu := cross_x_eq_iff hJ hK
      have hs := cross_y_eq_iff hJ hK
      by_cases hX : X₁ = X₂
      · have hu' := hu.mpr hX
        by_cases hY : Y₁ = Y₂
        · subst hX hY
          simp only [add, if_neg hJ0, if_neg hK0, if_pos hu', if_pos (hs.mpr rfl)]
          exact represents_double hJ
        · have hneg : Y₁ = C.weierstrass.negY X₂ Y₂ := by
            rcases WeierstrassCurve.Affine.Y_eq_of_X_eq n₁.1 n₂.1 hX with h | h
            · exact absurd h hY
            · exact h
          rw [WeierstrassCurve.Affine.Point.add_of_Y_eq hX hneg]
          simp only [add, if_neg hJ0, if_neg hK0, if_pos hu', if_neg (mt hs.mp hY)]
          exact represents_infinity
      · exact represents_chord hJ hK hJ0 hK0 hX (mt hu.mp hX)

theorem represents_nsmul {J : Jacobian} {P : C.weierstrass.Point} (h : J.Represents P) (k : Nat) :
    (nsmul C k J).Represents (k • P) := by
  induction k using Nat.strongRecOn with
  | ind k ih =>
    rw [nsmul]
    by_cases hk : k = 0
    · rw [if_pos hk, hk, zero_nsmul]
      exact represents_infinity
    · rw [if_neg hk]
      have hd := represents_double (ih (k / 2) (by omega))
      rw [← add_nsmul] at hd
      by_cases ho : k % 2 = 1
      · have e : k • P = (k / 2 + k / 2) • P + P := by
          rw [← succ_nsmul]
          congr 1
          omega
        rw [if_pos ho, e]
        exact represents_add hd h
      · have e : k / 2 + k / 2 = k := by omega
        rw [if_neg ho]
        rwa [e] at hd

end Jacobian

variable (C) in
def weierstrassHom : C.Group →+ C.weierstrass.Point where
  toFun := toWeierstrass
  map_zero' := rfl
  map_add' := toWeierstrass_add

theorem toWeierstrass_nsmul (k : Nat) (P : C.Group) : toWeierstrass (k • P) = k • toWeierstrass P :=
  map_nsmul (weierstrassHom C) k P

theorem mul_eq (k : Nat) (P : C.Group) : C.mul k P = (k • P : C.Group) := by
  refine Jacobian.toPoint_eq ?_
  rw [toWeierstrass_nsmul]
  exact Jacobian.represents_nsmul (Jacobian.represents_ofPoint P) k

theorem mulAdd_eq {G : C.Group} (hG : C.base = G) (k l : Nat) (P : C.Group) :
    C.mulAdd k l P = (k • G + l • P : C.Group) := by
  rw [mulAdd, hG]
  refine Jacobian.toPoint_eq ?_
  rw [toWeierstrass_add, toWeierstrass_nsmul, toWeierstrass_nsmul]
  exact Jacobian.represents_add (Jacobian.represents_nsmul (Jacobian.represents_ofPoint G) k)
    (Jacobian.represents_nsmul (Jacobian.represents_ofPoint P) l)

end Signet.Curve
