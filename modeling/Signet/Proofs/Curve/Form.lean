import Signet.Key.Encoding
import Signet.Proofs.Curve.Coordinate
import Signet.Proofs.Curve.Encoding

/-!
# The written forms of points

A point is written with both coordinates, with the first one and the parity of the second one, or with the first one
alone if the second one is the smaller of the two that go with it. These forms are read, and nothing else is, as long as
the point lies on the curve.
-/

namespace Signet.Curve

/-- The written forms of a point. -/
inductive IsForm (C : Curve) : Point → Bytes → Prop
  | full (x y : Nat) : C.IsForm (.affine x y) (encodePoint (.affine x y))
  | compressed (x y : Nat) : C.IsForm (.affine x y) (encodeCompressed (.affine x y))
  | compact (x : Nat) {y : Nat} (h : y ≤ Modular.neg C.p y) :
      C.IsForm (.affine x y) (5 :: Bytes.ofNat coordinateSize x)

variable {C : Curve}

theorem IsForm.length_le {P : Point} {b : Bytes} (h : C.IsForm P b) : b.length ≤ 65 := by
  cases h with
  | full x y => simp [encodePoint, coordinates, coordinateSize]
  | compressed x y => simp [encodeCompressed, coordinateSize]
  | compact x h => simp [coordinateSize]

/-! ## The two second coordinates -/

variable {x y z : Nat}

theorem neg_eq_sub (h0 : y ≠ 0) (hy : y < C.p) : Modular.neg C.p y = C.p - y := by
  rw [Modular.neg, Nat.mod_eq_of_lt hy, Nat.mod_eq_of_lt (by omega)]

variable [C.HasPrimeOrder]

/-- One of the two is even, the other one is odd. -/
theorem neg_mod_two (h2 : C.n ≠ 2) (h : C.contains x y = true) : Modular.neg C.p y % 2 = 1 - y % 2 := by
  have hodd : C.p % 2 = 1 := (IsElliptic.prime : C.p.Prime).eq_two_or_odd.resolve_left IsElliptic.odd
  have hy := (contains_iff.mp h).2.1
  rw [neg_eq_sub (ordinate_ne_zero h2 h) hy]
  omega

theorem neg_neg_of_contains (h2 : C.n ≠ 2) (h : C.contains x y = true) :
    Modular.neg C.p (Modular.neg C.p y) = y := by
  have h0 := ordinate_ne_zero h2 h
  have hy := (contains_iff.mp h).2.1
  rw [neg_eq_sub h0 hy, neg_eq_sub (by omega) (by omega)]
  omega

/-- The one that is found for `x`, or its negative, is the one with the parity of `y`. -/
theorem select_parity (h2 : C.n ≠ 2) (hz : C.contains x z = true) (hy : C.contains x y = true) :
    (if z % 2 = y % 2 then z else Modular.neg C.p z) = y := by
  have hparity := neg_mod_two h2 hz
  rcases eq_or_eq_neg_ordinate hy hz with rfl | hneg
  · rw [if_pos rfl]
  · rw [← hneg] at hparity ⊢
    rw [if_neg (by omega)]

theorem select_smaller (h2 : C.n ≠ 2) (hz : C.contains x z = true) (hy : C.contains x y = true)
    (h : y ≤ Modular.neg C.p y) : min z (Modular.neg C.p z) = y := by
  rcases eq_or_eq_neg_ordinate hy hz with rfl | hneg
  · exact min_eq_left h
  · rw [← hneg]
    rw [hneg, neg_neg_of_contains h2 hz, ← hneg] at h
    exact min_eq_right h

/-! ## Reading -/

omit [C.HasPrimeOrder] in
theorem ofNat_toNat_coordinate {c : Bytes} (h : c.length = coordinateSize) :
    Bytes.ofNat coordinateSize (Bytes.toNat c) = c := by
  rw [← h, Bytes.ofNat_toNat]

omit [C.HasPrimeOrder] in
theorem isForm_of_point? {c : Bytes} {P : Point} (hlength : c.length = 2 * coordinateSize)
    (h : C.point? (Bytes.toNat (c.take coordinateSize)) (Bytes.toNat (c.drop coordinateSize)) = some P) :
    C.IsForm P (4 :: c) := by
  obtain ⟨rfl, -⟩ := point?_eq_some h
  have htake : (c.take coordinateSize).length = coordinateSize := by
    rw [List.length_take]
    omega
  have hdrop : (c.drop coordinateSize).length = coordinateSize := by
    rw [List.length_drop]
    omega
  have hwritten (x y : Nat) : encodePoint (.affine x y)
      = 4 :: (Bytes.ofNat coordinateSize x ++ Bytes.ofNat coordinateSize y) := rfl
  have hform := IsForm.full (C := C) (Bytes.toNat (c.take coordinateSize)) (Bytes.toNat (c.drop coordinateSize))
  rwa [hwritten, ofNat_toNat_coordinate htake, ofNat_toNat_coordinate hdrop, List.take_append_drop] at hform

/-- The parity of the second coordinate is that of the tag. -/
theorem isForm_of_parity (h2 : C.n ≠ 2) {tag : UInt8} {c : Bytes} (htag : tag = 2 ∨ tag = 3)
    (hlength : c.length = coordinateSize) (hz : C.contains (Bytes.toNat c) z = true) :
    C.IsForm (.affine (Bytes.toNat c) (if z % 2 = tag.toNat % 2 then z else Modular.neg C.p z)) (tag :: c) := by
  have hneg := neg_mod_two h2 hz
  have hparity : (if z % 2 = tag.toNat % 2 then z else Modular.neg C.p z) % 2 = tag.toNat % 2 := by
    split
    · assumption
    · omega
  have hform := IsForm.compressed (C := C) (Bytes.toNat c) (if z % 2 = tag.toNat % 2 then z else Modular.neg C.p z)
  rw [encodeCompressed, ofNat_toNat_coordinate hlength, hparity] at hform
  rcases htag with rfl | rfl
  · exact hform
  · exact hform

theorem isForm_of_smaller (h2 : C.n ≠ 2) {c : Bytes} (hlength : c.length = coordinateSize)
    (hz : C.contains (Bytes.toNat c) z = true) :
    C.IsForm (.affine (Bytes.toNat c) (min z (Modular.neg C.p z))) (5 :: c) := by
  have hle : min z (Modular.neg C.p z) ≤ Modular.neg C.p (min z (Modular.neg C.p z)) := by
    rcases le_total z (Modular.neg C.p z) with hmin | hmin
    · rwa [min_eq_left hmin]
    · rwa [min_eq_right hmin, neg_neg_of_contains h2 hz]
  have hform := IsForm.compact (Bytes.toNat c) hle
  rwa [ofNat_toNat_coordinate hlength] at hform

/-- Only written forms are read. -/
theorem isForm_of_decodePoint? (h2 : C.n ≠ 2) {b : Bytes} {P : Point} (h : C.decodePoint? b = some P) :
    C.IsForm P b := by
  unfold decodePoint? at h
  split at h
  · cases h
  · next tag c =>
    split at h
    · next htag =>
      obtain ⟨hlength, hpoint⟩ := Option.ite_none_right_eq_some.mp h
      exact htag ▸ isForm_of_point? hlength hpoint
    · obtain ⟨hlength, h⟩ := Option.ite_none_right_eq_some.mp h
      split at h
      · next htag =>
        obtain ⟨z, hz, rfl⟩ := Option.map_eq_some_iff.mp h
        exact isForm_of_parity h2 htag hlength (contains_ordinate? hz)
      · obtain ⟨rfl, h⟩ := Option.ite_none_right_eq_some.mp h
        obtain ⟨z, hz, rfl⟩ := Option.map_eq_some_iff.mp h
        exact isForm_of_smaller h2 hlength (contains_ordinate? hz)

/-- Every written form of a point of the curve is read, where the prime leaves 3 on division by 4. -/
theorem decodePoint?_of_isForm (hp : C.p ≤ 256 ^ coordinateSize) (h4 : C.p % 4 = 3) (h2 : C.n ≠ 2) {b : Bytes}
    {P : Point} (h : C.IsForm P b) (hP : C.Lies P) : C.decodePoint? b = some P := by
  cases h with
  | full x y => exact decodePoint?_encodePoint hp hP
  | compressed x y =>
    have hx := toNat_coordinate hp (contains_iff.mp hP).1
    obtain ⟨z, hz⟩ := exists_ordinate? h4 hP
    have hselect := select_parity h2 (contains_ordinate? hz) hP
    rcases Nat.mod_two_eq_zero_or_one y with hy | hy
    · rw [hy] at hselect
      simp [encodeCompressed, decodePoint?, hy, hx, hz, hselect]
    · rw [hy] at hselect
      simp [encodeCompressed, decodePoint?, hy, hx, hz, hselect]
  | @compact x y hle =>
    have hx := toNat_coordinate hp (contains_iff.mp hP).1
    obtain ⟨z, hz⟩ := exists_ordinate? h4 hP
    have hselect := select_smaller h2 (contains_ordinate? hz) hP hle
    simp [decodePoint?, hx, hz, hselect]

/-- A byte string is read as a point exactly if it is a written form of the point and the point lies on the curve. -/
theorem decodePoint?_eq_some_iff (hp : C.p ≤ 256 ^ coordinateSize) (h4 : C.p % 4 = 3) (h2 : C.n ≠ 2) {b : Bytes}
    {P : Point} : C.decodePoint? b = some P ↔ C.IsForm P b ∧ C.Lies P := by
  constructor
  · intro h
    obtain ⟨x, y, rfl, hP⟩ := decodePoint?_eq_some h
    exact ⟨isForm_of_decodePoint? h2 h, hP⟩
  · rintro ⟨hform, hP⟩
    exact decodePoint?_of_isForm hp h4 h2 hform hP

end Signet.Curve
