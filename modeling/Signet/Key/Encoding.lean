import Signet.Der.Algorithm
import Signet.Der.Integer
import Signet.Key.Buffer
import Signet.Pem
import Signet.Text.Blank

/-!
# Written forms of keys

A public key is written as a public key record and a private key as a PKCS#8 record with an inner elliptic curve
record; both are put into PEM blocks. Reading finds the suite from the curve identifier first and the key
material afterwards.
-/

namespace Signet

/-- A PKCS#8 record: the algorithm and the inner private key. -/
structure PrivateKeyInfo where
  algorithm : Der.AlgorithmIdentifier
  key : Bytes
deriving DecidableEq, Repr

namespace PrivateKeyInfo

def toElement (k : PrivateKeyInfo) : Der.Element :=
  .sequence [.ofNat 0, k.algorithm.toElement, .ofOctets k.key]

/-- Whether an element is a constructed context-specific field around one element. -/
def isExtra (e : Der.Element) : Bool :=
  Der.isField e.tag && e.tag &&& 0x20 != 0 && (Der.Element.ofBytes? e.content).isSome

/-- The record of an element. The version is 1 exactly when the public key is there as field 1; further fields
are ignored. -/
def ofElement? (e : Der.Element) : Option PrivateKeyInfo := do
  match ← e.parts? Der.sequenceTag with
  | v :: a :: k :: rest =>
    let version ← v.nat?
    let algorithm ← Der.AlgorithmIdentifier.ofElement? a
    let key ← k.octets?
    let (field, extras) := Der.field? 1 rest
    match field with
    | none => if version = 0 ∧ extras.all isExtra then some ⟨algorithm, key⟩ else none
    | some f =>
      let bits ← (f.content? (Der.primitiveTag 1)).bind Der.BitString.ofContent?
      let _ ← bits.whole?
      if version = 1 ∧ extras.all isExtra then some ⟨algorithm, key⟩ else none
  | _ => none

def decode? (b : Bytes) : Option PrivateKeyInfo := (Der.Element.ofBytes? b).bind ofElement?

end PrivateKeyInfo

structure EcPrivateKey where
  scalar : Bytes
  point : Option Bytes
deriving DecidableEq, Repr

namespace EcPrivateKey

def encode (k : EcPrivateKey) : Bytes :=
  let point := k.point.toList.map fun p =>
    Der.Element.node (Der.constructedTag 1) [.ofBitString (.ofBytes p)]
  (Der.Element.sequence (.ofNat 1 :: .ofOctets k.scalar :: point)).encode

/-- The record of an element. Field 0 has to be an object identifier and field 1 is the point. -/
def ofElement? (e : Der.Element) : Option EcPrivateKey := do
  match ← e.parts? Der.sequenceTag with
  | v :: k :: rest =>
    let version ← v.nat?
    let scalar ← k.octets?
    let (curve, rest) := Der.field? 0 rest
    if let some f := curve then
      let _ ← (← f.explicit? 0).oid?
    let (point, rest) := Der.field? 1 rest
    match point with
    | none => if version = 1 ∧ rest = [] then some ⟨scalar, none⟩ else none
    | some f =>
      let bits ← (← f.explicit? 1).bitString?
      let p ← bits.whole?
      if version = 1 ∧ rest = [] then some ⟨scalar, some p⟩ else none
  | _ => none

def decode? (b : Bytes) : Option EcPrivateKey := (Der.Element.ofBytes? b).bind ofElement?

end EcPrivateKey

namespace Curve

def encodeCompressed : Point → Bytes
  | .infinity => [0]
  | .affine x y => (if y % 2 = 0 then 2 else 3) :: Bytes.ofNat coordinateSize x

/-- The scalar of a private key record: 24 to 32 bytes that write a number between 1 and `n - 1`. -/
def scalar? (C : Curve) (b : Bytes) : Option Nat :=
  let d := Bytes.toNat b
  if 24 ≤ b.length ∧ b.length ≤ 32 ∧ 1 ≤ d ∧ d < C.n then some d else none

end Curve

namespace Key

def privateLabel : Bytes := [80, 82, 73, 86, 65, 84, 69, 32, 75, 69, 89]

def publicLabel : Bytes := [80, 85, 66, 76, 73, 67, 32, 75, 69, 89]

def publicInfo (suite : Suite) (P : Point) : Der.PublicKeyInfo :=
  ⟨.ofCurve suite.curveOid, .ofBytes (Curve.encodePoint P)⟩

def publicDer (k : Key) : Bytes := (publicInfo k.suite k.point).encode

def privateDer (suite : Suite) (d : Nat) (P : Point) : Bytes :=
  let inner : EcPrivateKey := ⟨Bytes.ofNat 32 d, some (Curve.encodePoint P)⟩
  (PrivateKeyInfo.toElement ⟨.ofCurve suite.curveOid, inner.encode⟩).encode

def toDer (k : Key) : Bytes :=
  match k.secret with
  | some d => privateDer k.suite d k.point
  | none => k.publicDer

def ofPoint (suite : Suite) (P : Point) : Key :=
  ⟨suite, none, P, (Pem.Block.mk publicLabel (publicInfo suite P).encode).encode⟩

def ofScalar (suite : Suite) (d : Nat) : Key :=
  let P := suite.curve.mul d suite.curve.base
  ⟨suite, some d, P, (Pem.Block.mk privateLabel (privateDer suite d P)).encode⟩

def generate (suite : Suite) (e : Entropy) : Except CryptoError (Key × Entropy) :=
  match e.drawScalar? suite.curve.n with
  | some (d, e) => .ok (ofScalar suite d, e)
  | none => .error .rng

def publicKey (k : Key) : Key := if k.isPrivate then ofPoint k.suite k.point else k

def suiteOf (a : Der.AlgorithmIdentifier) : Except CryptoError Suite :=
  match a.parameterOid? with
  | none => .error (.malformedKey .encoding)
  | some o =>
    match Suite.ofCurveOid? o with
    | some s => .ok s
    | none => .error (.unsupportedAlgorithm ("curve " ++ o.toString))

def point? (suite : Suite) (k : Der.PublicKeyInfo) : Option Point := do
  let b ← k.key.whole?
  if k.algorithm.algorithm = .ecPublicKey then suite.curve.decodePoint? b else none

/-- The scalar of a private key record of a suite. A point in the record has to be the right one. -/
def secret? (suite : Suite) (k : PrivateKeyInfo) : Option Nat := do
  let inner ← EcPrivateKey.decode? k.key
  let d ← suite.curve.scalar? inner.scalar
  let P := suite.curve.mul d suite.curve.base
  let agrees := inner.point.all fun p => p == Curve.encodePoint P || p == Curve.encodeCompressed P
  if k.algorithm.algorithm = .ecPublicKey ∧ agrees then some d else none

/-- The key of a public key record, of which the curve identifier tells the suite. -/
def ofPublicInfo (info : Der.PublicKeyInfo) : Except CryptoError Key := do
  let suite ← suiteOf info.algorithm
  match point? suite info with
  | some P => return ofPoint suite P
  | none => .error (.malformedKey .encoding)

def ofPublicDer (b : Bytes) : Except CryptoError Key :=
  match Der.PublicKeyInfo.decode? b with
  | none => .error .der
  | some info => ofPublicInfo info

def ofBuffer (suite : Suite) (b : Bytes) : Except CryptoError Key := do
  let p ← bufferPoint b
  match suite.curve.decodePoint? p with
  | some P => return ofPoint suite P
  | none => .error (.malformedKey (.offCurve suite))

/-- Reads the record of a private key of the given suite, which keeps the text `pem`. -/
def ofPrivateBlock (suite : Suite) (b pem : Bytes) : Except CryptoError Key :=
  match PrivateKeyInfo.decode? b with
  | none => .error (.malformedKey .encoding)
  | some info => do
    let found ← suiteOf info.algorithm
    suite.expect found
    match secret? suite info with
    | some d => return ⟨suite, some d, suite.curve.mul d suite.curve.base, pem⟩
    | none => .error (.malformedKey .encoding)

def ofPublicBlock (suite : Suite) (b pem : Bytes) : Except CryptoError Key :=
  match Der.PublicKeyInfo.decode? b with
  | none => .error .der
  | some info => do
    let found ← suiteOf info.algorithm
    suite.expect found
    match point? suite info with
    | some P => return ⟨suite, none, P, pem⟩
    | none => .error (.malformedKey .encoding)

/-- Reads the block of a private or public key of the given suite, which keeps the text `pem`. -/
def ofBlock (suite : Suite) (block : Pem.Block) (pem : Bytes) : Except CryptoError Key :=
  if block.label = privateLabel then ofPrivateBlock suite block.content pem
  else if block.label = publicLabel then ofPublicBlock suite block.content pem
  else .error (.unknownPemLabel (String.ofList (block.label.map fun c => Char.ofNat c.toNat)))

/-- Reads a PEM text of a private or public key of the given suite. The key keeps the text without the white
space in front. -/
def ofPem (suite : Suite) (b : Bytes) : Except CryptoError Key :=
  match Bytes.toString? b, Pem.decode? b with
  | some text, some block => ofBlock suite block (Bytes.ofString (Text.trimStart text))
  | _, _ => .error (.malformedKey .encoding)

end Key

end Signet
