import Signet.Proofs.Key.Compact
import Signet.Proofs.Key.Record
import Signet.Proofs.Key.Validity

/-!
# Written forms of keys are read back

The record of a public key and the compact form give back the point of any key, the PKCS#8 record gives back the scalar
of a private one as well.
-/

namespace Signet

namespace Key

open Der

/-! ## Records of keys -/

theorem length_encodePoint_le (P : Point) : (Curve.encodePoint P).length ≤ 65 := by
  cases P with
  | infinity => decide
  | affine x y => simp [Curve.encodePoint, Curve.coordinates, Curve.coordinateSize]

/-- The bit string of a point in a record. -/
def pointBits (b : Bytes) : Element := .ofBitString (.ofBytes b)

theorem fitsWithin_pointBits {b : Bytes} (h : b.length ≤ 65) : (pointBits b).FitsWithin 66 :=
  .of_content rfl (Nat.succ_le_succ h) (by decide)

theorem fitsWithin_ofCurve (o : Oid) : (AlgorithmIdentifier.ofCurve o).toElement.FitsWithin 90 := by
  have hoid (o : Oid) : (Element.ofOid o).FitsWithin 39 := ⟨Element.fits_ofOid o, o.length_content_le⟩
  have hparts : ∀ e ∈ [Element.ofOid .ecPublicKey, .ofOid o], e.FitsWithin 39 :=
    List.forall_mem_cons.mpr ⟨hoid _, List.forall_mem_singleton.mpr (hoid o)⟩
  exact .node rfl hparts (show 2 * (39 + 6) ≤ 90 by decide) (by decide)

/-- The record of a public key whose point is written as `b`. -/
def record (suite : Suite) (b : Bytes) : PublicKeyInfo := ⟨.ofCurve suite.curveOid, .ofBytes b⟩

theorem fits_record (suite : Suite) {b : Bytes} (h : b.length ≤ 65) : (record suite b).toElement.Fits := by
  have hbits : (pointBits b).FitsWithin 90 := (fitsWithin_pointBits h).mono (by decide)
  have hparts : ∀ e ∈ [(AlgorithmIdentifier.ofCurve suite.curveOid).toElement, pointBits b], e.FitsWithin 90 :=
    List.forall_mem_cons.mpr ⟨fitsWithin_ofCurve _, List.forall_mem_singleton.mpr hbits⟩
  exact (Element.FitsWithin.node rfl hparts (show 2 * (90 + 6) ≤ 192 by decide) (by decide)).1

theorem decode?_record (suite : Suite) {b : Bytes} (h : b.length ≤ 65) :
    PublicKeyInfo.decode? (record suite b).encode = some (record suite b) := by
  have hfits := fits_record suite h
  have hvalid : (record suite b).IsValid := ⟨AlgorithmIdentifier.isValid_ofCurve _, BitString.isValid_ofBytes _⟩
  rw [PublicKeyInfo.decode?, PublicKeyInfo.encode, Element.ofBytes?_encode hfits, Option.bind_some,
    PublicKeyInfo.ofElement?_toElement hfits hvalid]

theorem decode?_publicInfo (suite : Suite) (P : Point) :
    PublicKeyInfo.decode? (publicInfo suite P).encode = some (publicInfo suite P) :=
  decode?_record suite (length_encodePoint_le P)

theorem suiteOf_ofCurve (suite : Suite) : suiteOf (.ofCurve suite.curveOid) = .ok suite := by
  have hoid : (AlgorithmIdentifier.ofCurve suite.curveOid).parameterOid? = some suite.curveOid :=
    Element.oid?_ofOid suite.curveOid
  have hsuite : Suite.ofCurveOid? suite.curveOid = some suite := by cases suite <;> rfl
  simp only [suiteOf, hoid, hsuite]

/-- The inner record of a private key. -/
def ecRecord (d : Nat) (P : Point) : EcPrivateKey := ⟨Bytes.ofNat 32 d, some (Curve.encodePoint P)⟩

theorem fitsWithin_ecRecord (d : Nat) (P : Point) : (ecRecord d P).toElement.FitsWithin 288 := by
  have hversion : (Element.ofNat 1).FitsWithin 90 := .of_content rfl (by decide) (by decide)
  have hscalar : (Element.ofOctets (Bytes.ofNat 32 d)).FitsWithin 90 :=
    .of_content rfl (by simp [Element.ofOctets]) (by decide)
  have hbits : (pointBits (Curve.encodePoint P)).FitsWithin 66 := fitsWithin_pointBits (length_encodePoint_le P)
  have hfield : (EcPrivateKey.pointField (Curve.encodePoint P)).FitsWithin 90 :=
    .node (by decide) (List.forall_mem_singleton.mpr hbits) (show 1 * (66 + 6) ≤ 90 by decide) (by decide)
  have hparts : ∀ e ∈ [Element.ofNat 1, .ofOctets (Bytes.ofNat 32 d), EcPrivateKey.pointField (Curve.encodePoint P)],
      e.FitsWithin 90 := by
    simp only [List.forall_mem_cons]
    exact ⟨hversion, hscalar, hfield, nofun⟩
  exact .node rfl hparts (show 3 * (90 + 6) ≤ 288 by decide) (by decide)

theorem fits_privateInfo (o : Oid) (d : Nat) (P : Point) :
    (PrivateKeyInfo.toElement ⟨.ofCurve o, (ecRecord d P).encode⟩).Fits := by
  obtain ⟨hfits, hlength⟩ := fitsWithin_ecRecord d P
  have hencode : (ecRecord d P).encode.length ≤ 294 := (Element.length_encode_le hfits).trans (by omega)
  have hversion : (Element.ofNat 0).FitsWithin 294 := .of_content rfl (by decide) (by decide)
  have halgorithm : (AlgorithmIdentifier.ofCurve o).toElement.FitsWithin 294 := (fitsWithin_ofCurve o).mono (by decide)
  have hkey : (Element.ofOctets (ecRecord d P).encode).FitsWithin 294 := .of_content rfl hencode (by decide)
  have hparts : ∀ e ∈ [Element.ofNat 0, (AlgorithmIdentifier.ofCurve o).toElement, .ofOctets (ecRecord d P).encode],
      e.FitsWithin 294 := by
    simp only [List.forall_mem_cons]
    exact ⟨hversion, halgorithm, hkey, nofun⟩
  exact (Element.FitsWithin.node rfl hparts (show 3 * (294 + 6) ≤ 900 by decide) (by decide)).1

theorem decode?_privateDer (suite : Suite) (d : Nat) (P : Point) :
    PrivateKeyInfo.decode? (privateDer suite d P) = some ⟨.ofCurve suite.curveOid, (ecRecord d P).encode⟩ :=
  PrivateKeyInfo.decode?_toElement (fits_privateInfo suite.curveOid d P) (AlgorithmIdentifier.isValid_ofCurve _)

/-! ## Points and scalars -/

theorem Valid.decodePoint?_encodePoint {k : Key} (h : k.Valid) :
    k.suite.curve.decodePoint? (Curve.encodePoint k.point) = some k.point := by
  cases hP : k.point with
  | infinity => exact absurd hP h.ne_infinity
  | affine x y => exact Curve.decodePoint?_encodePoint k.suite.coordinate_bounds.1 (hP ▸ h.lies :)

theorem Valid.point?_publicInfo {k : Key} (h : k.Valid) :
    point? k.suite (publicInfo k.suite k.point) = some k.point := by
  have hwhole : (publicInfo k.suite k.point).key.whole? = some (Curve.encodePoint k.point) := rfl
  have hcurve : (publicInfo k.suite k.point).algorithm.algorithm = .ecPublicKey := rfl
  rw [point?, hwhole, Option.bind_eq_bind, Option.bind_some, if_pos hcurve, h.decodePoint?_encodePoint]

theorem scalar?_ofNat (suite : Suite) {d : Nat} (h1 : 1 ≤ d) (hn : d < suite.curve.n) :
    suite.curve.scalar? (Bytes.ofNat 32 d) = some d := by
  have hle : suite.curve.n ≤ 256 ^ 32 := by cases suite <;> decide
  have hd : Bytes.toNat (Bytes.ofNat 32 d) = d := by
    rw [Bytes.toNat_ofNat, Nat.mod_eq_of_lt (hn.trans_le hle)]
  simp [Curve.scalar?, hd, h1, hn]

theorem secret?_ecRecord (suite : Suite) {d : Nat} (h1 : 1 ≤ d) (hn : d < suite.curve.n) :
    secret? suite ⟨.ofCurve suite.curveOid, (ecRecord d (suite.curve.mul d suite.curve.base)).encode⟩ = some d := by
  have hrecord := EcPrivateKey.decode?_encode (fitsWithin_ecRecord d (suite.curve.mul d suite.curve.base)).1
  have hcurve : (AlgorithmIdentifier.ofCurve suite.curveOid).algorithm = .ecPublicKey := rfl
  have hscalar : suite.curve.scalar? (ecRecord d (suite.curve.mul d suite.curve.base)).scalar = some d :=
    scalar?_ofNat suite h1 hn
  simp only [secret?, hrecord, Option.bind_eq_bind, Option.bind_some, hscalar, hcurve]
  simp [ecRecord]

/-! ## Compact keys -/

theorem isCompact_toBuffer {k : Key} {x y : Nat} (h : k.point = .affine x y) :
    IsCompact k.toBuffer (Bytes.ofNat Curve.coordinateSize x) (Bytes.ofNat Curve.coordinateSize y) [] := by
  have hx : (Curve.coordinates k.point).take Curve.coordinateSize = Bytes.ofNat Curve.coordinateSize x :=
    h ▸ List.take_left' (Bytes.length_ofNat ..)
  have hy : (Curve.coordinates k.point).drop Curve.coordinateSize = Bytes.ofNat Curve.coordinateSize y :=
    h ▸ List.drop_left' (Bytes.length_ofNat ..)
  have hwritten : k.toBuffer = Bytes.ofNatLE 2 Curve.coordinateSize ++ Bytes.ofNat Curve.coordinateSize x
      ++ Bytes.ofNatLE 2 Curve.coordinateSize ++ Bytes.ofNat Curve.coordinateSize y := by
    rw [toBuffer, hx, hy]
  refine ⟨?_, ?_, ?_, ?_⟩
  · rw [hwritten, Bytes.length_ofNat, Bytes.length_ofNat, List.append_nil]
  · rw [Bytes.length_ofNat]
    decide
  · rw [Bytes.length_ofNat]
    decide
  · rw [hwritten]
    simp only [List.length_append, Bytes.length_ofNat, Bytes.length_ofNatLE]
    decide

theorem bufferPoint_toBuffer {k : Key} (h : k.point ≠ .infinity) :
    bufferPoint k.toBuffer = .ok (Curve.encodePoint k.point) := by
  cases hP : k.point with
  | infinity => exact absurd hP h
  | affine x y =>
    rw [(isCompact_toBuffer hP).bufferPoint_eq, fixedCoordinate_of_length (Bytes.length_ofNat ..),
      fixedCoordinate_of_length (Bytes.length_ofNat ..)]
    rfl

/-! ## Keys -/

/-- The label of the block that a key is written in. -/
def label (k : Key) : Bytes := if k.isPrivate then privateLabel else publicLabel

namespace Valid

variable {k : Key}

theorem ofPublicInfo_publicInfo (h : k.Valid) :
    ofPublicInfo (publicInfo k.suite k.point) = .ok (ofPoint k.suite k.point) := by
  refine bind_eq_ok.mpr ⟨k.suite, suiteOf_ofCurve k.suite, ?_⟩
  rw [h.point?_publicInfo]
  rfl

theorem ofPublicDer_publicDer (h : k.Valid) : ofPublicDer k.publicDer = .ok (ofPoint k.suite k.point) := by
  have hread := h.ofPublicInfo_publicInfo
  rw [ofPublicDer, publicDer, decode?_publicInfo]
  exact hread

theorem ofBuffer_toBuffer (h : k.Valid) : ofBuffer k.suite k.toBuffer = .ok (ofPoint k.suite k.point) := by
  refine bind_eq_ok.mpr ⟨_, bufferPoint_toBuffer h.ne_infinity, ?_⟩
  rw [h.decodePoint?_encodePoint]
  rfl

theorem ofPrivateBlock_toDer {d : Nat} (h : k.Valid) (hd : k.secret = some d) (pem : Bytes) :
    ofPrivateBlock k.suite k.toDer pem = .ok { k with pem } := by
  obtain ⟨h1, hn, hP⟩ := h.secret d hd
  have hder : k.toDer = privateDer k.suite d k.point := by rw [toDer, hd]
  have hsecret := secret?_ecRecord k.suite h1 hn
  rw [ofPrivateBlock, hder, decode?_privateDer]
  refine bind_eq_ok.mpr ⟨k.suite, suiteOf_ofCurve k.suite, bind_eq_ok.mpr ⟨(), if_pos rfl, ?_⟩⟩
  rw [hP, hsecret]
  simp only [← hP, ← hd]
  rfl

theorem ofPublicBlock_toDer (h : k.Valid) (hd : k.secret = none) (pem : Bytes) :
    ofPublicBlock k.suite k.toDer pem = .ok { k with pem } := by
  have hder : k.toDer = (publicInfo k.suite k.point).encode := by rw [toDer, hd, publicDer]
  have hpoint := h.point?_publicInfo
  rw [ofPublicBlock, hder, decode?_publicInfo]
  refine bind_eq_ok.mpr ⟨k.suite, suiteOf_ofCurve k.suite, bind_eq_ok.mpr ⟨(), if_pos rfl, ?_⟩⟩
  rw [hpoint, ← hd]
  rfl

theorem ofBlock_toDer (h : k.Valid) (pem : Bytes) : ofBlock k.suite ⟨k.label, k.toDer⟩ pem = .ok { k with pem } := by
  rcases Option.eq_none_or_eq_some k.secret with hd | ⟨d, hd⟩
  · have hlabel : k.label = publicLabel := by rw [label, isPrivate, hd]; rfl
    exact ofBlock_eq_ok.mpr (.inr ⟨hlabel, h.ofPublicBlock_toDer hd pem⟩)
  · have hlabel : k.label = privateLabel := by rw [label, isPrivate, hd]; rfl
    exact ofBlock_eq_ok.mpr (.inl ⟨hlabel, h.ofPrivateBlock_toDer hd pem⟩)

end Valid

end Key

end Signet
