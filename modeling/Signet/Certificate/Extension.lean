import Signet.Certificate.Oids
import Signet.Der.BitString
import Signet.Der.Integer

/-!
# Extensions of certificates

An extension is a byte string under an object identifier. This module holds the general form and the contents that
issuing writes and checking reads. A content that does not parse counts as absent.
-/

namespace Signet

structure Extension where
  id : Der.Oid
  critical : Bool
  value : Bytes
deriving DecidableEq, Repr

namespace Extension

/-- The element of an extension. An extension that is not critical does not say so. -/
def toElement (x : Extension) : Der.Element :=
  .sequence ([.ofOid x.id] ++ (if x.critical then [.ofBool true] else []) ++ [.ofOctets x.value])

def ofElement? (e : Der.Element) : Option Extension := do
  match ← e.parts? Der.sequenceTag with
  | [id, value] => return ⟨← id.oid?, false, ← value.octets?⟩
  | [id, critical, value] => return ⟨← id.oid?, ← critical.bool?, ← value.octets?⟩
  | _ => none

/-- What `read?` finds in the first of the extensions with the given identifier. -/
def find? {α : Type} (id : Der.Oid) (read? : Der.Element → Option α) (xs : List Extension) : Option α := do
  let x ← xs.find? fun x => x.id == id
  read? (← Der.Element.ofBytes? x.value)

end Extension

inductive KeyPurpose where
  | digitalSignature
  | nonRepudiation
  | keyEncipherment
  | dataEncipherment
  | keyAgreement
  | keyCertSign
  | cRLSign
  | encipherOnly
  | decipherOnly
deriving DecidableEq, Repr

namespace KeyPurpose

def all : List KeyPurpose :=
  [digitalSignature, nonRepudiation, keyEncipherment, dataEncipherment, keyAgreement, keyCertSign, cRLSign,
    encipherOnly, decipherOnly]

def name : KeyPurpose → String
  | digitalSignature => "digitalSignature"
  | nonRepudiation => "nonRepudiation"
  | keyEncipherment => "keyEncipherment"
  | dataEncipherment => "dataEncipherment"
  | keyAgreement => "keyAgreement"
  | keyCertSign => "keyCertSign"
  | cRLSign => "cRLSign"
  | encipherOnly => "encipherOnly"
  | decipherOnly => "decipherOnly"

end KeyPurpose

/-- The purposes of a key, in the order of their bits. -/
abbrev KeyUsage := List KeyPurpose

namespace KeyUsage

def ofBits (bits : List Bool) : KeyUsage := ((KeyPurpose.all.zip bits).filter (·.2)).map (·.1)

/-- The bits of the purposes up to the last one that is there. -/
def bits (u : KeyUsage) : List Bool :=
  ((KeyPurpose.all.map u.contains).reverse.dropWhile fun b => !b).reverse

/-- The byte of up to eight bits, the first one being its high bit. -/
def packByte (bits : List Bool) : UInt8 :=
  UInt8.ofNat (((bits ++ List.replicate (8 - bits.length) false).foldl (fun n b => 2 * n + b.toNat) 0))

def packBits (bits : List Bool) : Der.BitString :=
  let bytes := if bits = [] then [] else if bits.length ≤ 8 then [packByte bits]
    else [packByte (bits.take 8), packByte (bits.drop 8)]
  ⟨UInt8.ofNat (8 * bytes.length - bits.length), bytes⟩

def toElement (u : KeyUsage) : Der.Element := .ofBitString (packBits u.bits)

/-- The purposes of an element: a bit string of at most 16 bits, of which the ones without a purpose are ignored. -/
def ofElement? (e : Der.Element) : Option KeyUsage := do
  let bits := (← e.bitString?).bits
  if bits.length ≤ 16 then some (ofBits bits) else none

end KeyUsage

/-- Whether a certificate is that of an authority, and how many other authorities may follow it on a path. -/
structure BasicConstraints where
  ca : Bool
  pathLength : Option UInt8
deriving DecidableEq, Repr

namespace BasicConstraints

def toElement (b : BasicConstraints) : Der.Element :=
  .sequence ((if b.ca then [.ofBool true] else []) ++ b.pathLength.toList.map fun n => .ofNat n.toNat)

def pathLength? (e : Der.Element) : Option UInt8 := do
  let n ← e.nat?
  if n < 256 then some (UInt8.ofNat n) else none

def ofElement? (e : Der.Element) : Option BasicConstraints := do
  match ← e.parts? Der.sequenceTag with
  | [] => return ⟨false, none⟩
  | [x] =>
    match x.bool? with
    | some ca => return ⟨ca, none⟩
    | none => return ⟨false, some (← pathLength? x)⟩
  | [x, y] => return ⟨← x.bool?, some (← pathLength? y)⟩
  | _ => none

end BasicConstraints

namespace Extension

def usages (us : List Der.Oid) : Der.Element := .sequence (us.map .ofOid)

def usages? (e : Der.Element) : Option (List Der.Oid) := do
  (← e.parts? Der.sequenceTag).mapM Der.Element.oid?

def issuerKey (id : Bytes) : Der.Element := .sequence [⟨Der.primitiveTag 0, id⟩]

def hostName (name : Bytes) : Der.Element := .sequence [⟨Der.primitiveTag 2, name⟩]

def ofContent (id : Der.Oid) (critical : Bool) (e : Der.Element) : Extension := ⟨id, critical, e.encode⟩

end Extension

end Signet
