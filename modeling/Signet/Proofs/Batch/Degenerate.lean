import Signet.Proofs.Batch.Soundness
import Signet.Proofs.Curve.Encoding

/-!
# Batches whose carried points vanish

The sum of the points that the signatures of a batch carry can be at infinity. It has no first coordinate there, and 0
is taken in its place, whereas the combined point is refused if it is at infinity. So such a batch is accepted if its
combined point has the first coordinate 0, or the order, which no point has.
-/

namespace Signet.Engine

open Curve Signing.Ecdsa

theorem contains_axis :
    p256.contains 0 0x66485c780e2f83d72433bd5d84a06bb6541c2af31dae871728bf856a174f93f4 = true := by decide +kernel

/-- The point with the first coordinate 0 and an even second one. -/
def axisPoint : p256.Group :=
  ⟨.affine 0 0x66485c780e2f83d72433bd5d84a06bb6541c2af31dae871728bf856a174f93f4, contains_axis⟩

theorem x_ne_order {x y : Nat} (h : p256.Lies (.affine x y)) : x ≠ p256.n := by
  rintro rfl
  have hnone : p256.ordinate? p256.n = none := by decide +kernel
  obtain ⟨z, hz⟩ := exists_ordinate? (by decide) h
  rw [hnone] at hz
  cases hz

/-- No point has the order as its first coordinate, so that only the first coordinate 0 leaves the residue 0. -/
theorem x_mod_eq_zero_iff (P : p256.Group) :
    P ≠ 0 ∧ (P : Point).x % p256.n = 0 ↔ P = axisPoint ∨ P = -axisPoint := by
  have hne : axisPoint ≠ 0 := fun h => Point.noConfusion (congrArg Group.point h)
  constructor
  · rintro ⟨hP, hx⟩
    match P with
    | ⟨.infinity, _⟩ => exact absurd rfl hP
    | ⟨.affine x y, h⟩ =>
      have hlt : x < 2 * p256.n := (contains_iff.mp h).1.trans (by decide)
      rcases eq_or_add_of_mod_eq hlt (by decide) (hx.trans (Nat.zero_mod _).symm) with h0 | hn | h0
      · subst h0
        exact eq_or_eq_neg h contains_axis
      · exact absurd (hn.trans (Nat.zero_add _)) (x_ne_order h)
      · have hpos : 0 < p256.n := by decide
        omega
  · rintro (rfl | rfl)
    · exact ⟨hne, Nat.zero_mod _⟩
    · refine ⟨neg_ne_zero.mpr hne, ?_⟩
      rw [coe_neg]
      exact Nat.zero_mod _

/-- A batch whose carried points add up to the point at infinity is accepted exactly if the points that it asks for add
up to one of the two points with the first coordinate 0. -/
theorem verify_of_fold_eq_infinity {g : Engine} {k : Key} (hk : k.Made) (hs : k.suite = .ecdsaP256)
    {messages signatures : List Bytes} (hlen : messages.length = signatures.length) {a : Schedule}
    (ha : g.cache.lookup messages.length = some a) {es : List BatchEntry}
    (hes : BatchEntry.decodeAll p256 0 signatures = .ok es)
    (hfold : a.fold p256 (es.map BatchEntry.point) = .ok .infinity) :
    ∃ (Q : p256.Group) (r s : Nat → Word256) (R : Nat → p256.Group),
      (Q : Point) = k.point ∧ ReadsAll signatures r s R ∧
        let V := combination a fun i => ephemeral Q (digestAt messages i) (r i) (s i)
        g.verify k messages signatures = if V = axisPoint ∨ V = -axisPoint then .ok () else .error .rejected := by
  obtain ⟨Q, hQ⟩ := hk.valid.exists_point hs
  obtain ⟨r, s, R, hR⟩ := readsAll_of_decodeAll hes
  refine ⟨Q, r, s, R, hQ, hR, ?_⟩
  have hsize := size_of_lookup ha
  have hpos : 0 < a.size := List.length_pos_iff.mpr a.bits_ne_nil
  have hshape := checkShape_eq_ok.mpr ⟨hs, hlen, hsize ▸ hpos⟩
  have hdegenerate : combination a R = 0 := by
    have hread := decodeAll_of_readsAll hR
    rw [hes, Except.ok.injEq] at hread
    rw [hread, ← hlen, ← hsize, fold_eq_combination, Except.ok.injEq] at hfold
    exact coe_eq_infinity_iff.mp hfold
  have hx : (combination a R : Point).x % p256.n = 0 := by
    rw [hdegenerate]
    exact Nat.zero_mod _
  rw [verify_eq hQ hshape ha hR, hx]
  exact if_congr (x_mod_eq_zero_iff _) rfl rfl

/-- The carried points of this forgery are opposite, and it is accepted. -/
theorem vanished_fold :
    vanished.key.Made ∧ plain.verify vanished.key vanished.messages vanished.signatures = .ok () ∧
      ∃ a es, plain.cache.lookup vanished.messages.length = some a ∧
        BatchEntry.decodeAll p256 0 vanished.signatures = .ok es ∧
        a.fold p256 (es.map BatchEntry.point) = .ok .infinity := by
  let a : Schedule := ⟨[false, false], [0, 1], [], by decide, rfl, by decide, by decide⟩
  have hfold : (BatchEntry.decodeAll p256 0 vanished.signatures >>= fun es => a.fold p256 (es.map BatchEntry.point))
      = .ok .infinity := by decide +kernel
  obtain ⟨es, hes, hinfinity⟩ := bind_eq_ok.mp hfold
  exact ⟨passes_vanished.made, passes_vanished.accepted, a, es, rfl, hes, hinfinity⟩

theorem verify_of_fold_eq_infinity_vanished :
    ∃ (Q : p256.Group) (a : Schedule) (r s : Nat → Word256),
      (Q : Point) = vanished.key.point ∧ plain.cache.lookup 2 = some a ∧
        let V := combination a fun i => ephemeral Q (digestAt vanished.messages i) (r i) (s i)
        V = axisPoint ∨ V = -axisPoint := by
  obtain ⟨hmade, hok, a, es, ha, hes, hfold⟩ := vanished_fold
  have hsuite : vanished.key.suite = .ecdsaP256 := rfl
  have hlen : vanished.messages.length = vanished.signatures.length := rfl
  obtain ⟨Q, r, s, R, hQ, -, hverify⟩ := verify_of_fold_eq_infinity hmade hsuite hlen ha hes hfold
  refine ⟨Q, a, r, s, hQ, ha, ?_⟩
  by_contra hne
  rw [hok] at hverify
  simp only [if_neg hne] at hverify
  cases hverify

/-- A batch can be accepted although its carried points add up to the point at infinity. -/
theorem vanished_accepted :
    vanished.key.Made ∧ vanished.key.suite = .ecdsaP256 ∧ vanished.messages.length = vanished.signatures.length ∧
      (∃ a es, plain.cache.lookup vanished.messages.length = some a ∧
        BatchEntry.decodeAll p256 0 vanished.signatures = .ok es ∧
        a.fold p256 (es.map BatchEntry.point) = .ok .infinity) ∧
      plain.verify vanished.key vanished.messages vanished.signatures = .ok () := by
  obtain ⟨hmade, hok, hfold⟩ := vanished_fold
  exact ⟨hmade, rfl, rfl, hfold, hok⟩

end Signet.Engine
