import Signet.Proofs.Curve.Jacobian
import Mathlib.GroupTheory.OrderOfElement
import Mathlib.GroupTheory.Perm.Cycle.Type
import Mathlib.SetTheory.Cardinal.Finite
import Mathlib.Algebra.Module.ZMod

/-!
# The order of the group

There are at most two points with the same first coordinate, so that the group has at most `2 p + 1` elements. A base
point whose prime order is above a third of this bound leaves room for one or two of its multiples. No point of order
two exists if the right side of the equation has no root; then the base point generates the group.
-/

namespace Signet.Curve

/-- The curves whose points are the multiples of the base point, of which there is a prime number. -/
class HasPrimeOrder (C : Curve) : Prop extends C.IsElliptic where
  prime_n : C.n.Prime
  lies_base : C.Lies C.base
  card_eq : Nat.card C.Group = C.n

variable {C : Curve}

/-! ## Counting points -/

section Count

variable [C.IsElliptic]

/-- The first coordinate of a point and the parity of the second one. -/
def shadow : C.Group → Option (Fin C.p × Bool)
  | ⟨.infinity, _⟩ => none
  | ⟨.affine x y, h⟩ => some (⟨x, (contains_iff.mp h).1⟩, y % 2 == 0)

theorem shadow_injective : Function.Injective (shadow (C := C)) := by
  intro P Q hPQ
  match P, Q with
  | ⟨.infinity, _⟩, ⟨.infinity, _⟩ => rfl
  | ⟨.infinity, _⟩, ⟨.affine _ _, _⟩ => simp [shadow] at hPQ
  | ⟨.affine _ _, _⟩, ⟨.infinity, _⟩ => simp [shadow] at hPQ
  | ⟨.affine x y, h⟩, ⟨.affine x' y', h'⟩ =>
    simp only [shadow, Option.some.injEq, Prod.mk.injEq, Fin.mk.injEq] at hPQ
    obtain ⟨rfl, hpar⟩ := hPQ
    have hyy : y = y' := by
      rcases cast_eq_or_eq_neg h h' with hs | hs
      · exact hs
      · -- The sum of the two is 0 or the odd prime, and their parities agree.
        obtain ⟨-, hy, -⟩ := contains_iff.mp h
        obtain ⟨-, hy', -⟩ := contains_iff.mp h'
        have hd : C.p ∣ y + y' := by
          rw [← ZMod.natCast_eq_zero_iff, Nat.cast_add, hs, neg_add_cancel]
        have hodd : C.p % 2 = 1 := (IsElliptic.prime : C.p.Prime).eq_two_or_odd.resolve_left IsElliptic.odd
        have hpar' : y % 2 = 0 ↔ y' % 2 = 0 := by rw [← beq_iff_eq, hpar, beq_iff_eq]
        obtain ⟨k, hk⟩ := hd
        have hk2 : k < 2 := by
          by_contra hge
          have := Nat.mul_le_mul_left C.p (Nat.le_of_not_lt hge)
          omega
        interval_cases k <;> omega
    subst hyy
    rfl

instance : Finite C.Group := Finite.of_injective shadow shadow_injective

theorem card_le : Nat.card C.Group ≤ 2 * C.p + 1 := by
  have h := Nat.card_le_card_of_injective shadow (shadow_injective (C := C))
  rw [Finite.card_option, Nat.card_prod, Nat.card_fin, show Nat.card Bool = 2 by simp] at h
  omega

/-- A point that is its own negative has a root of the right side as its first coordinate. -/
theorem eq_zero_of_add_self {P : C.Group} (hroot : ∀ x : ZMod C.p, x ^ 3 + C.a * x + C.b ≠ 0) (h : P + P = 0) :
    P = 0 := by
  match P with
  | ⟨.infinity, _⟩ => rfl
  | ⟨.affine x y, hP⟩ =>
    obtain ⟨hx, hy, e⟩ := contains_iff.mp hP
    have hn : (⟨.affine x y, hP⟩ : C.Group) = -⟨.affine x y, hP⟩ := eq_neg_of_add_eq_zero_left h
    have hc : Point.affine x y = C.neg (.affine x y) := (congrArg Group.point hn).trans (coe_neg _)
    have hyn : y = Modular.neg C.p y := by simpa [Curve.neg] using hc
    have h0 : (y : ZMod C.p) + y = 0 := by
      rw [← eq_neg_iff_add_eq_zero, ← Modular.cast_neg, ← hyn]
    rw [← two_mul, mul_eq_zero, or_iff_right two_ne_zero] at h0
    rw [h0, zero_pow (by omega)] at e
    exact absurd e.symm (hroot x)

theorem card_eq_of_base (hn : C.n.Prime) (hb : C.Lies C.base) (hnb : C.mul C.n C.base = .infinity)
    (hlt : 2 * C.p + 1 < 3 * C.n) (hroot : ∀ x : ZMod C.p, x ^ 3 + C.a * x + C.b ≠ 0) :
    Nat.card C.Group = C.n := by
  have : Fact C.n.Prime := ⟨hn⟩
  let G : C.Group := ⟨C.base, hb⟩
  have hG : C.n • G = 0 := Group.ext ((mul_eq C.n G).symm.trans hnb)
  have hG0 : G ≠ 0 := fun h => Point.noConfusion (congrArg Group.point h)
  have hord : addOrderOf G = C.n := addOrderOf_eq_prime hG hG0
  obtain ⟨m, hm⟩ := hord ▸ addOrderOf_dvd_natCard G
  have hle := card_le (C := C)
  have hpos : 0 < Nat.card C.Group := Nat.card_pos
  have hm3 : m < 3 := by
    by_contra hge
    have := Nat.mul_le_mul_left C.n (Nat.le_of_not_lt hge)
    omega
  have hm0 : m ≠ 0 := by
    rintro rfl
    omega
  have hm2 : m ≠ 2 := by
    rintro rfl
    have : Fact (Nat.Prime 2) := ⟨Nat.prime_two⟩
    obtain ⟨P, hP⟩ := exists_prime_addOrderOf_dvd_card' 2 (Dvd.intro_left C.n hm.symm)
    have h2 : P + P = 0 := by rw [← two_nsmul, ← hP, addOrderOf_nsmul_eq_zero]
    have h1 := eq_zero_of_add_self hroot h2
    rw [h1, addOrderOf_zero] at hP
    omega
  have : m = 1 := by omega
  rw [hm, this, Nat.mul_one]

end Count

/-! ## Multiples modulo the order -/

section PrimeOrder

variable [C.HasPrimeOrder]

instance factPrimeOrder : Fact C.n.Prime := ⟨HasPrimeOrder.prime_n⟩

variable (C) in
/-- The base point, which generates the group. -/
def generator : C.Group := ⟨C.base, HasPrimeOrder.lies_base⟩

theorem n_nsmul (P : C.Group) : C.n • P = 0 := by
  rw [← HasPrimeOrder.card_eq (C := C)]
  exact card_nsmul_eq_zero'

/-- The scalars are the residues modulo the order. -/
instance : Module (ZMod C.n) C.Group := AddCommGroup.zmodModule n_nsmul

theorem cast_smul (k : Nat) (P : C.Group) : (k : ZMod C.n) • P = k • P := Nat.cast_smul_eq_nsmul _ k P

@[simp] theorem mod_nsmul (k : Nat) (P : C.Group) : (k % C.n) • P = k • P := by
  rw [← cast_smul, ZMod.natCast_mod, cast_smul]

theorem generator_ne_zero : generator C ≠ 0 := fun h => Point.noConfusion (congrArg Group.point h)

theorem smul_eq_zero_iff {c : ZMod C.n} {P : C.Group} (hP : P ≠ 0) : c • P = 0 ↔ c = 0 := by
  rw [smul_eq_zero, or_iff_left hP]

theorem nsmul_eq_zero_iff {k : Nat} {P : C.Group} (hP : P ≠ 0) : k • P = 0 ↔ k % C.n = 0 := by
  rw [← cast_smul, smul_eq_zero_iff hP, ZMod.natCast_eq_zero_iff, Nat.dvd_iff_mod_eq_zero]

/-- The second coordinate of a point is not 0, since no point has order two. -/
theorem ordinate_ne_zero (h2 : C.n ≠ 2) {x y : Nat} (h : C.Lies (.affine x y)) : y ≠ 0 := by
  rintro rfl
  have hd : (2 : Nat) • (⟨.affine x 0, h⟩ : C.Group) = 0 := by
    rw [two_nsmul]
    refine Group.ext ?_
    rw [coe_add, coe_zero]
    simp [add]
  rw [nsmul_eq_zero_iff (fun h => Point.noConfusion (congrArg Group.point h)), ← Nat.dvd_iff_mod_eq_zero,
    Nat.dvd_prime Nat.prime_two] at hd
  exact hd.elim (HasPrimeOrder.prime_n (C := C)).ne_one h2

end PrimeOrder

end Signet.Curve
