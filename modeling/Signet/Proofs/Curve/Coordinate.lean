import Signet.Proofs.Curve.Order

/-!
# First coordinates

Points with the same first coordinate are equal or opposite. First coordinates that leave the same residue modulo the
order are equal or differ by the order, as long as the prime is less than twice the order.
-/

namespace Signet.Curve

variable {C : Curve}

theorem eq_or_eq_neg_ordinate [C.IsElliptic] {x y y' : Nat} (h : C.contains x y = true) (h' : C.contains x y' = true) :
    y = y' ∨ y = Modular.neg C.p y' := by
  obtain ⟨-, hy, -⟩ := contains_iff.mp h
  refine (cast_eq_or_eq_neg h h').imp_right fun hs => ?_
  exact Modular.eq_of_cast_eq hy (Modular.neg_lt y') (by rw [hs, Modular.cast_neg])

theorem eq_or_eq_neg [C.IsElliptic] {x y y' : Nat} (h : C.Lies (.affine x y)) (h' : C.Lies (.affine x y')) :
    (⟨_, h⟩ : C.Group) = ⟨_, h'⟩ ∨ (⟨_, h⟩ : C.Group) = -⟨_, h'⟩ := by
  rcases eq_or_eq_neg_ordinate h h' with rfl | hneg
  · exact .inl rfl
  · right
    refine Group.ext ?_
    rw [coe_neg]
    exact congrArg (Point.affine x) hneg

theorem eq_or_add_of_mod_eq {m a b : Nat} (ha : a < 2 * m) (hb : b < 2 * m) (h : a % m = b % m) :
    a = b ∨ a = b + m ∨ b = a + m := by
  have hda : a / m < 2 := Nat.div_lt_of_lt_mul (by omega)
  have hdb : b / m < 2 := Nat.div_lt_of_lt_mul (by omega)
  have ea := Nat.div_add_mod a m
  have eb := Nat.div_add_mod b m
  rw [h] at ea
  interval_cases a / m <;> interval_cases b / m <;> omega

/-- The points whose first coordinates leave the same residue. -/
theorem cases_of_x_mod_eq [C.HasPrimeOrder] (hp : C.p < 2 * C.n) {P S : C.Group} (hP : P ≠ 0)
    (h : (P : Point).x % C.n = (S : Point).x % C.n) :
    P = S ∨ P = -S ∨ (S = 0 ∧ (P : Point).x % C.n = 0)
      ∨ (P : Point).x = (S : Point).x + C.n ∨ (S : Point).x = (P : Point).x + C.n := by
  match P, S with
  | ⟨.infinity, _⟩, _ => exact absurd rfl hP
  | ⟨.affine x y, hl⟩, ⟨.infinity, _⟩ => exact .inr (.inr (.inl ⟨rfl, h.trans (Nat.zero_mod _)⟩))
  | ⟨.affine x y, hl⟩, ⟨.affine x' y', hl'⟩ =>
    have hx := (contains_iff.mp hl).1
    have hx' := (contains_iff.mp hl').1
    rcases eq_or_add_of_mod_eq (hx.trans hp) (hx'.trans hp) h with hxx | hxx
    · have : x = x' := hxx
      subst this
      rcases eq_or_eq_neg hl hl' with he | he
      · exact .inl he
      · exact .inr (.inl he)
    · exact .inr (.inr (.inr hxx))

end Signet.Curve
