import Signet.Proofs.Key.Text
import Signet.Proofs.Key.Point

/-!
# Reading compact public keys

A compact key is read if it has the compact form and its coordinates are those of a point of the curve, and then the
key has that point. What is left of the compact form of a key when its end is cut off is not read.
-/

namespace Signet.Key

variable {suite : Suite} {b X Y rest : Bytes} {k : Key}

theorem IsCompact.ofBuffer_eq_ok (h : IsCompact b X Y rest) :
    ofBuffer suite b = .ok k ↔ suite.curve.Solves (Bytes.toNat X) (Bytes.toNat Y) ∧
      k = ofPoint suite (.affine (Bytes.toNat X) (Bytes.toNat Y)) := by
  rw [← Curve.contains_iff_solves]
  constructor
  · intro hread
    obtain ⟨p, hp, hread⟩ := bind_eq_ok.mp hread
    rw [h.bufferPoint_eq] at hp
    obtain ⟨x, hx, hp⟩ := bind_eq_ok.mp hp
    obtain ⟨y, hy, hp⟩ := bind_eq_ok.mp hp
    obtain ⟨hX, rfl⟩ := fixedCoordinate_eq_ok.mp hx
    obtain ⟨hY, rfl⟩ := fixedCoordinate_eq_ok.mp hy
    cases hp
    rw [Curve.decodePoint?_coordinates hX hY] at hread
    split at hread
    · next P hP =>
      cases hread
      obtain ⟨rfl, hcontains⟩ := Curve.point?_eq_some hP
      exact ⟨hcontains, rfl⟩
    · cases hread
  · rintro ⟨hcontains, rfl⟩
    have hsize := suite.coordinate_bounds.1
    obtain ⟨hX, hY, -⟩ := Curve.contains_iff.mp hcontains
    have hx : fixedCoordinate .x X = .ok _ := fixedCoordinate_eq_ok.mpr ⟨hX.trans_le hsize, rfl⟩
    have hy : fixedCoordinate .y Y = .ok _ := fixedCoordinate_eq_ok.mpr ⟨hY.trans_le hsize, rfl⟩
    refine bind_eq_ok.mpr ⟨_, h.bufferPoint_eq.trans (bind_eq_ok.mpr ⟨_, hx, bind_eq_ok.mpr ⟨_, hy, rfl⟩⟩), ?_⟩
    rw [Curve.decodePoint?_coordinates (hX.trans_le hsize) (hY.trans_le hsize), Curve.point?, if_pos hcontains]
    rfl

theorem ofBuffer_eq_ok :
    ofBuffer suite b = .ok k ↔ ∃ X Y rest, IsCompact b X Y rest ∧
      suite.curve.Solves (Bytes.toNat X) (Bytes.toNat Y) ∧
      k = ofPoint suite (.affine (Bytes.toNat X) (Bytes.toNat Y)) := by
  constructor
  · intro h
    obtain ⟨p, hp, -⟩ := bind_eq_ok.mp h
    obtain ⟨X, Y, rest, hcompact⟩ := exists_isCompact hp
    exact ⟨X, Y, rest, hcompact, hcompact.ofBuffer_eq_ok.mp h⟩
  · rintro ⟨X, Y, rest, hcompact, h⟩
    exact hcompact.ofBuffer_eq_ok.mpr h

/-- Nothing is read of the compact form of a key when its end is missing. -/
theorem Valid.ofBuffer_of_cut (h : k.Valid) {p : Bytes} (hcut : p <+: k.toBuffer) (hne : p ≠ k.toBuffer) :
    ∃ e, ofBuffer suite p = .error e := by
  cases hread : ofBuffer suite p with
  | error e => exact ⟨e, rfl⟩
  | ok l =>
    obtain ⟨X, Y, rest, hcompact, -⟩ := ofBuffer_eq_ok.mp hread
    obtain ⟨s, hs⟩ := hcut
    cases hP : k.point with
    | infinity => exact absurd hP h.ne_infinity
    | affine x y =>
      have hrest := (hs ▸ hcompact.append s).rest_eq (isCompact_toBuffer hP)
      rw [(List.append_eq_nil_iff.mp hrest).2, List.append_nil] at hs
      exact absurd hs hne

/-- A compact key is read exactly if it is two lengths that fit, each with the coordinate behind it, and at least one
byte behind the second length, and the coordinates are those of a point of the curve. No position behind the end is
read on the way. -/
theorem ofBuffer_exact (suite : Suite) (b : Bytes) :
    scanBuffer? b = some (bufferPoint b) ∧
    (∀ k, ofBuffer suite b = .ok k ↔ ∃ X Y rest, IsCompact b X Y rest ∧
      suite.curve.Solves (Bytes.toNat X) (Bytes.toNat Y) ∧
      k = ofPoint suite (.affine (Bytes.toNat X) (Bytes.toNat Y))) ∧
    ∀ k : Key, k.Made → ∀ p, p <+: k.toBuffer → p ≠ k.toBuffer → ∃ e, ofBuffer suite p = .error e :=
  ⟨scanBuffer?_eq b, fun _ => ofBuffer_eq_ok, fun _ hk _ hcut hne => hk.valid.ofBuffer_of_cut hcut hne⟩

/-- A compact key with a leading zero in each coordinate and one more byte behind them. -/
def paddedBuffer : Bytes :=
  [2, 0, 0, 5, 33, 0, 0] ++ Bytes.ofNat 32 0x459243b9aa581806fe913bce99817ade11ca503c64d9a3c533415c083248fbcc ++ [7]

theorem ofBuffer_exact_padded :
    scanBuffer? paddedBuffer = some (bufferPoint paddedBuffer) ∧ ofBuffer .ecdsaP256 paddedBuffer = .ok shortKey ∧
      shortKey.Made ∧ shortKey.toBuffer.take 67 <+: shortKey.toBuffer ∧
      shortKey.toBuffer.take 67 ≠ shortKey.toBuffer ∧
      ∃ e, ofBuffer .ecdsaP256 (shortKey.toBuffer.take 67) = .error e := by
  obtain ⟨hscan, hread, hrefused⟩ := ofBuffer_exact .ecdsaP256 paddedBuffer
  have hcompact : IsCompact paddedBuffer [0, 5]
      (0 :: Bytes.ofNat 32 0x459243b9aa581806fe913bce99817ade11ca503c64d9a3c533415c083248fbcc) [7] :=
    ⟨by decide, by decide, by decide, by decide⟩
  have hcontains : Curve.p256.contains 5 0x459243b9aa581806fe913bce99817ade11ca503c64d9a3c533415c083248fbcc = true := by
    decide +kernel
  have hpadded : ofBuffer .ecdsaP256 paddedBuffer = .ok shortKey :=
    (hread shortKey).mpr ⟨_, _, _, hcompact, Curve.contains_iff_solves.mp hcontains, rfl⟩
  have hmade : shortKey.Made := .ofBuffer hpadded
  have hne : shortKey.toBuffer.take 67 ≠ shortKey.toBuffer := by decide +kernel
  have hcut : shortKey.toBuffer.take 67 <+: shortKey.toBuffer := List.take_prefix ..
  exact ⟨hscan, hpadded, hmade, hcut, hne, hrefused _ hmade _ hcut hne⟩

end Signet.Key
