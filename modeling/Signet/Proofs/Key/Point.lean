import Signet.Proofs.Curve.Form
import Signet.Proofs.Der.Decoding
import Signet.Proofs.Key.Encoding

/-!
# The points of keys

The point of every key is written with two reduced coordinates that solve the equation of the curve of its suite, and
the point of a private key is the multiple of the base point by its scalar. The records that public keys are read from
are those of the written forms of such points: the shorter forms are no way around the equation.
-/

namespace Signet

open Der

/-- Reduced coordinates that solve the equation of a curve. -/
def Curve.Solves (C : Curve) (x y : Nat) : Prop :=
  x < C.p ∧ y < C.p ∧ y ^ 2 % C.p = (x ^ 3 + C.a * x + C.b) % C.p

theorem Curve.contains_iff_solves {C : Curve} [C.IsElliptic] {x y : Nat} : C.contains x y = true ↔ C.Solves x y := by
  rw [contains_iff, Solves, ← ZMod.natCast_eq_natCast_iff']
  push_cast
  rfl

namespace Key

variable {k : Key} {suite : Suite}

/-! ## Written points -/

/-- The point of a key is written as two coordinates of 32 bytes each, which solve the equation of its curve. -/
def HasCurvePoint (k : Key) : Prop :=
  ∃ X Y : Bytes, k.pointBytes = 4 :: (X ++ Y) ∧ X.length = 32 ∧ Y.length = 32 ∧
    k.suite.curve.Solves (Bytes.toNat X) (Bytes.toNat Y)

theorem Valid.hasCurvePoint (h : k.Valid) : k.HasCurvePoint := by
  have hp := k.suite.coordinate_bounds.1
  cases hP : k.point with
  | infinity => exact absurd hP h.ne_infinity
  | affine x y =>
    have hlies : k.suite.curve.contains x y = true := (hP ▸ h.lies :)
    obtain ⟨hx, hy, -⟩ := Curve.contains_iff.mp hlies
    refine ⟨Bytes.ofNat 32 x, Bytes.ofNat 32 y, ?_, Bytes.length_ofNat .., Bytes.length_ofNat .., ?_⟩
    · rw [pointBytes, hP]
      rfl
    · have ex : Bytes.toNat (Bytes.ofNat 32 x) = x := Curve.toNat_coordinate hp hx
      have ey : Bytes.toNat (Bytes.ofNat 32 y) = y := Curve.toNat_coordinate hp hy
      rw [ex, ey]
      exact Curve.contains_iff_solves.mp hlies

/-- The scalar of a private key is reduced, and its multiple of the base point is what is written. -/
theorem Valid.pointBytes_eq {d : Nat} (h : k.Valid) (hd : k.secret = some d) :
    (1 ≤ d ∧ d < k.suite.curve.n) ∧
      k.pointBytes = Curve.encodePoint (d • Curve.generator k.suite.curve : k.suite.curve.Group) := by
  obtain ⟨h1, hn, -⟩ := h.secret d hd
  rw [pointBytes, h.nsmul_generator hd]
  exact ⟨⟨h1, hn⟩, rfl⟩

theorem decodePoint?_iff {b : Bytes} {P : Point} :
    suite.curve.decodePoint? b = some P ↔ suite.curve.IsForm P b ∧ suite.curve.Lies P := by
  obtain ⟨hp, h4, h2⟩ := suite.coordinate_bounds
  exact Curve.decodePoint?_eq_some_iff hp h4 h2

/-! ## Records of public keys -/

theorem eq_curveOid_of_ofCurveOid? {o : Oid} (h : Suite.ofCurveOid? o = some suite) : o = suite.curveOid := by
  unfold Suite.ofCurveOid? at h
  split at h
  · next ho =>
    cases h
    exact ho
  · obtain ⟨ho, hsuite⟩ := Option.ite_none_right_eq_some.mp h
    cases hsuite
    exact ho

/-- The suite of an algorithm is told by its parameter only. -/
theorem parameters_of_suiteOf {a : AlgorithmIdentifier} (h : suiteOf a = .ok suite) :
    a.parameters = some (.ofOid suite.curveOid) := by
  unfold suiteOf at h
  split at h
  · cases h
  · next o ho =>
    split at h
    · next s hs =>
      cases h
      obtain ⟨e, he, ho⟩ := Option.bind_eq_some_iff.mp ho
      rw [he, Element.oid?_eq_some.mp ho, eq_curveOid_of_ofCurveOid? hs]
    · cases h

theorem eq_record_of_point? {info : PublicKeyInfo} {P : Point} (hsuite : suiteOf info.algorithm = .ok suite)
    (h : point? suite info = some P) : ∃ b, info = record suite b ∧ suite.curve.decodePoint? b = some P := by
  obtain ⟨⟨algorithm, parameters⟩, unused, bytes⟩ := info
  have hparameters : parameters = some (.ofOid suite.curveOid) := parameters_of_suiteOf hsuite
  simp only [point?, BitString.whole?, Option.bind_eq_bind, Option.bind_eq_some_iff, Option.ite_none_right_eq_some,
    Option.some.injEq] at h
  obtain ⟨b, ⟨rfl, rfl⟩, rfl, hP⟩ := h
  exact ⟨bytes, by rw [hparameters]; rfl, hP⟩

theorem point?_record (b : Bytes) : point? suite (record suite b) = suite.curve.decodePoint? b := rfl

theorem ofPublicInfo_eq_ok {info : PublicKeyInfo} :
    ofPublicInfo info = .ok k ↔
      ∃ suite b P, info = record suite b ∧ suite.curve.decodePoint? b = some P ∧ k = ofPoint suite P := by
  constructor
  · intro h
    obtain ⟨suite, hsuite, h⟩ := bind_eq_ok.mp h
    split at h
    · next P hP =>
      cases h
      obtain ⟨b, hinfo, hb⟩ := eq_record_of_point? hsuite hP
      exact ⟨suite, b, P, hinfo, hb, rfl⟩
    · cases h
  · rintro ⟨suite, b, P, rfl, hP, rfl⟩
    refine bind_eq_ok.mpr ⟨suite, suiteOf_ofCurve suite, ?_⟩
    rw [point?_record, hP]
    rfl

/-- A public key is read from the records of the written forms of points of the curve, and from nothing else. -/
theorem ofPublicDer_eq_ok {b : Bytes} :
    ofPublicDer b = .ok k ↔
      ∃ suite c P, b = (record suite c).encode ∧ suite.curve.IsForm P c ∧ suite.curve.Lies P ∧ k = ofPoint suite P := by
  constructor
  · intro h
    unfold ofPublicDer at h
    split at h
    · cases h
    · next info hinfo =>
      obtain ⟨e, he, hread⟩ := Option.bind_eq_some_iff.mp hinfo
      obtain ⟨-, rfl⟩ := Element.ofBytes?_eq_some.mp he
      obtain ⟨rfl, -⟩ := PublicKeyInfo.eq_toElement_of_ofElement? hread
      obtain ⟨suite, c, P, rfl, hP, rfl⟩ := ofPublicInfo_eq_ok.mp h
      obtain ⟨hform, hlies⟩ := decodePoint?_iff.mp hP
      exact ⟨suite, c, P, rfl, hform, hlies, rfl⟩
  · rintro ⟨suite, c, P, rfl, hform, hlies, rfl⟩
    have hP := decodePoint?_iff.mpr ⟨hform, hlies⟩
    have hinfo : ofPublicInfo (record suite c) = .ok (ofPoint suite P) :=
      ofPublicInfo_eq_ok.mpr ⟨suite, c, P, rfl, hP, rfl⟩
    rw [ofPublicDer, decode?_record suite hform.length_le]
    exact hinfo

/-- Whichever way a key is made, its point is one of the curve of its suite and goes with its scalar. Points in a short
form are no exception: what is read as a public key is exactly the record of a written form of a point of the curve. -/
theorem points_valid :
    (∀ k : Key, k.Made → k.HasCurvePoint ∧ ∀ d, k.secret = some d →
      (1 ≤ d ∧ d < k.suite.curve.n) ∧
        k.pointBytes = Curve.encodePoint (d • Curve.generator k.suite.curve : k.suite.curve.Group)) ∧
    ∀ (b : Bytes) (k : Key), ofPublicDer b = .ok k ↔
      ∃ suite c P, b = (record suite c).encode ∧ suite.curve.IsForm P c ∧ suite.curve.Lies P ∧ k = ofPoint suite P :=
  ⟨fun _ hk => ⟨hk.valid.hasCurvePoint, fun _ hd => hk.valid.pointBytes_eq hd⟩, fun _ _ => ofPublicDer_eq_ok⟩

/-- The base point of SM2 in its compressed form is read as a public key, and the private key 1 has the same point. -/
theorem points_valid_compressed :
    (∃ k, ofPublicDer (record .sm2 (Curve.encodeCompressed Curve.sm2.base)).encode = .ok k ∧ k.Made ∧
      k.HasCurvePoint) ∧
      (ofScalar .sm2 1).Made ∧ (ofScalar .sm2 1).HasCurvePoint ∧
      (ofScalar .sm2 1).pointBytes = Curve.encodePoint ((1 : Nat) • Curve.generator Curve.sm2 : Curve.sm2.Group) := by
  have hread : ofPublicDer (record .sm2 (Curve.encodeCompressed Curve.sm2.base)).encode
      = .ok (ofPoint .sm2 Curve.sm2.base) :=
    (points_valid.2 _ _).mpr ⟨.sm2, _, _, rfl, .compressed _ _, Curve.HasPrimeOrder.lies_base, rfl⟩
  have hpublic : (ofPoint .sm2 Curve.sm2.base).Made := .ofPublicDer hread
  have hprivate : (ofScalar .sm2 1).Made := made_ofScalar .sm2 (by decide) (by decide)
  obtain ⟨hpoint, hsecret⟩ := points_valid.1 _ hprivate
  exact ⟨⟨_, hread, hpublic, (points_valid.1 _ hpublic).1⟩, hprivate, hpoint, (hsecret 1 rfl).2⟩

end Key

end Signet
