import Signet.Curve.Encoding
import Signet.Proofs.Bytes
import Signet.Proofs.Curve.Group

/-!
# Points that are read lie on the curve

Conversely the first coordinate of a point has a second one, where the prime leaves 3 on division by 4.
-/

namespace Signet.Curve

variable {C : Curve} [C.IsElliptic]

theorem contains_neg {x y : Nat} (h : C.contains x y = true) : C.contains x (Modular.neg C.p y) = true := by
  obtain ⟨hx, -, e⟩ := contains_iff.mp h
  exact contains_iff.mpr ⟨hx, Modular.neg_lt y, by rw [Modular.cast_neg, neg_sq, e]⟩

theorem contains_ordinate? {x y : Nat} (h : C.ordinate? x = some y) : C.contains x y = true := by
  have hp : 0 < C.p := (IsElliptic.prime : C.p.Prime).pos
  unfold ordinate? at h
  split at h
  · next hx =>
    unfold Modular.sqrt? at h
    simp only [Option.ite_none_right_eq_some, Option.some.injEq] at h
    obtain ⟨hsq, hy⟩ := h
    have hr : C.rhs x % C.p = C.rhs x := Nat.mod_eq_of_lt (Nat.mod_lt _ hp)
    rw [hy, hr] at hsq
    simp only [contains, Bool.and_eq_true, decide_eq_true_eq, beq_iff_eq]
    exact ⟨⟨hx, hy ▸ Modular.pow_lt _ _⟩, hsq⟩
  · cases h

/-- The fourth power of the candidate for a root of `y²` is `y ^ (p + 1)`, which is `y²`. -/
theorem exists_ordinate? (h4 : C.p % 4 = 3) {x y : Nat} (h : C.contains x y = true) : ∃ z, C.ordinate? x = some z := by
  obtain ⟨hx, -, e⟩ := contains_iff.mp h
  have hrhs : ((C.rhs x : Nat) : ZMod C.p) = (y : ZMod C.p) ^ 2 := by
    rw [e, ← cast_rhs]
  have hexp : 2 * ((C.p + 1) / 4) * 2 = C.p + 1 := by omega
  have hroot : Modular.pow C.p (C.rhs x) ((C.p + 1) / 4) * Modular.pow C.p (C.rhs x) ((C.p + 1) / 4) % C.p
      = C.rhs x % C.p := by
    refine (ZMod.natCast_eq_natCast_iff' ..).mp ?_
    rw [Nat.cast_mul, Modular.cast_pow, hrhs, ← pow_mul, ← pow_two, ← pow_mul, hexp, pow_succ, ZMod.pow_card, pow_two]
  refine ⟨Modular.pow C.p (C.rhs x) ((C.p + 1) / 4), ?_⟩
  rw [ordinate?, if_pos hx, Modular.sqrt?, if_pos hroot]

omit [C.IsElliptic] in
theorem point?_eq_some {x y : Nat} {P : Point} (h : C.point? x y = some P) :
    P = .affine x y ∧ C.contains x y = true := by
  unfold point? at h
  simp only [Option.ite_none_right_eq_some, Option.some.injEq] at h
  exact ⟨h.2.symm, h.1⟩

theorem decodePoint?_eq_some {b : Bytes} {P : Point} (h : C.decodePoint? b = some P) :
    ∃ x y, P = .affine x y ∧ C.contains x y = true := by
  unfold decodePoint? at h
  split at h
  · cases h
  · next tag c =>
    split at h
    · -- both coordinates
      simp only [Option.ite_none_right_eq_some] at h
      exact ⟨_, _, point?_eq_some h.2⟩
    · simp only [Option.ite_none_right_eq_some] at h
      obtain ⟨-, h⟩ := h
      split at h
      · -- the first one and a parity
        obtain ⟨y, hy, rfl⟩ := Option.map_eq_some_iff.mp h
        refine ⟨_, _, rfl, ?_⟩
        split
        · exact contains_ordinate? hy
        · exact contains_neg (contains_ordinate? hy)
      · -- the first one, with the smaller second one
        simp only [Option.ite_none_right_eq_some] at h
        obtain ⟨y, hy, rfl⟩ := Option.map_eq_some_iff.mp h.2
        refine ⟨_, _, rfl, ?_⟩
        rcases min_choice y (Modular.neg C.p y) with hm | hm
        · rw [hm]
          exact contains_ordinate? hy
        · rw [hm]
          exact contains_neg (contains_ordinate? hy)

omit [C.IsElliptic] in
theorem toNat_coordinate (hp : C.p ≤ 256 ^ coordinateSize) {n : Nat} (hn : n < C.p) :
    Bytes.toNat (Bytes.ofNat coordinateSize n) = n := by
  rw [Bytes.toNat_ofNat, Nat.mod_eq_of_lt (hn.trans_le hp)]

/-- Points of a curve over at most 256 bits have different written forms. -/
theorem eq_of_encodePoint_eq (hp : C.p ≤ 256 ^ coordinateSize) {P Q : Point} (hP : C.Lies P) (hQ : C.Lies Q)
    (h : encodePoint P = encodePoint Q) : P = Q := by
  cases P with
  | infinity =>
    cases Q with
    | infinity => rfl
    | affine x' y' => simp [encodePoint] at h
  | affine x y =>
    cases Q with
    | infinity => simp [encodePoint] at h
    | affine x' y' =>
      obtain ⟨hx, hy, -⟩ := contains_iff.mp hP
      obtain ⟨hx', hy', -⟩ := contains_iff.mp hQ
      simp only [encodePoint, coordinates, List.cons.injEq, true_and] at h
      obtain ⟨ex, ey⟩ := List.append_inj h (by simp)
      rw [← toNat_coordinate hp hx, ex, toNat_coordinate hp hx', ← toNat_coordinate hp hy, ey, toNat_coordinate hp hy']

omit [C.IsElliptic] in
/-- Two coordinates of the full size are read as the point that they are those of. -/
theorem decodePoint?_coordinates {x y : Nat} (hx : x < 256 ^ coordinateSize) (hy : y < 256 ^ coordinateSize) :
    C.decodePoint? (4 :: Bytes.ofNat coordinateSize x ++ Bytes.ofNat coordinateSize y) = C.point? x y := by
  have hlength : (Bytes.ofNat coordinateSize x ++ Bytes.ofNat coordinateSize y).length = 2 * coordinateSize := by
    rw [List.length_append, Bytes.length_ofNat, Bytes.length_ofNat, Nat.two_mul]
  rw [List.cons_append, decodePoint?, if_pos rfl, if_pos hlength, List.take_left' (Bytes.length_ofNat ..),
    List.drop_left' (Bytes.length_ofNat ..), Bytes.toNat_ofNat, Bytes.toNat_ofNat, Nat.mod_eq_of_lt hx,
    Nat.mod_eq_of_lt hy]

/-- A point is read back from its written form. -/
theorem decodePoint?_encodePoint (hp : C.p ≤ 256 ^ coordinateSize) {x y : Nat} (h : C.contains x y = true) :
    C.decodePoint? (encodePoint (.affine x y)) = some (.affine x y) := by
  obtain ⟨hx, hy, -⟩ := contains_iff.mp h
  have hread : C.decodePoint? (encodePoint (.affine x y)) = C.point? x y :=
    decodePoint?_coordinates (hx.trans_le hp) (hy.trans_le hp)
  rw [hread, point?, if_pos h]

end Signet.Curve
