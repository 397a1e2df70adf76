import Signet.Certificate.Extension
import Signet.Certificate.Name
import Signet.Der.Algorithm
import Signet.Der.Time
import Signet.Text.Hex

/-!
# Certificates

A certificate is a body with an algorithm identifier and a signature. What is kept is the structure: its written
form is made anew, so that parts which the rules write in one way only are written in that way.
-/

namespace Signet

inductive CertificateVersion where
  | v1
  | v2
  | v3
deriving DecidableEq, Repr

namespace CertificateVersion

def number : CertificateVersion → Nat
  | v1 => 0
  | v2 => 1
  | v3 => 2

def ofNumber? : Nat → Option CertificateVersion
  | 0 => some v1
  | 1 => some v2
  | 2 => some v3
  | _ => none

end CertificateVersion

/-- A serial number: the content of an integer of either sign with at most 21 bytes. -/
structure SerialNumber where
  content : Bytes
  canonical : Der.isIntegerContent content = true
  short : content.length ≤ 21
deriving DecidableEq

namespace SerialNumber

def ofElement? (e : Der.Element) : Option SerialNumber := do
  let b ← e.content? Der.integerTag
  if h : Der.isIntegerContent b = true ∧ b.length ≤ 21 then some ⟨b, h.1, h.2⟩ else none

def toElement (s : SerialNumber) : Der.Element := ⟨Der.integerTag, s.content⟩

/-- The text of a serial number: the number that its bytes write, in decimal, or in hexadecimal above 16 bytes. -/
def text (s : SerialNumber) : String :=
  let b := Bytes.stripZeros s.content
  if b.length ≤ 16 then (Bytes.toNat b).repr else Hex.encode b

end SerialNumber

structure Validity where
  notBefore : Der.Time
  notAfter : Der.Time
deriving DecidableEq, Repr

namespace Validity

def toElement (v : Validity) : Der.Element := .sequence [.ofTime v.notBefore, .ofTime v.notAfter]

def ofElement? (e : Der.Element) : Option Validity := do
  match ← e.parts? Der.sequenceTag with
  | [b, a] => return ⟨← b.time?, ← a.time?⟩
  | _ => none

/-- Whether the time `now` lies in a validity. Times are whole seconds since the start of 1970, without the fraction of
the current one: within the second that begins at the end of a validity, a finer clock would already be past the end. -/
def contains (v : Validity) (now : Int) : Bool :=
  v.notBefore.dateTime.toUnix ≤ now && now ≤ v.notAfter.dateTime.toUnix

end Validity

/-- The part of a certificate that is signed. -/
structure CertificateBody where
  version : CertificateVersion
  serial : SerialNumber
  algorithm : Der.AlgorithmIdentifier
  issuer : Name
  validity : Validity
  subject : Name
  publicKey : Der.PublicKeyInfo
  issuerId : Option Der.BitString
  subjectId : Option Der.BitString
  extensions : Option (List Extension)
deriving DecidableEq

namespace CertificateBody

/-- The element of a body. The first version is not written. -/
def toElement (b : CertificateBody) : Der.Element :=
  let version := if b.version = .v1 then [] else
    [.node (Der.constructedTag 0) [Der.Element.ofNat b.version.number]]
  let unique (n : UInt8) (s : Option Der.BitString) : List Der.Element :=
    s.toList.map fun s => ⟨Der.primitiveTag n, s.content⟩
  let extensions := b.extensions.toList.map fun xs =>
    Der.Element.node (Der.constructedTag 3) [.sequence (xs.map Extension.toElement)]
  .sequence (version
    ++ [b.serial.toElement, b.algorithm.toElement, b.issuer.toElement, b.validity.toElement, b.subject.toElement,
      b.publicKey.toElement]
    ++ unique 1 b.issuerId ++ unique 2 b.subjectId ++ extensions)

def version? : Option Der.Element → Option CertificateVersion
  | none => some .v1
  | some f => do CertificateVersion.ofNumber? (← (← f.explicit? 0).nat?)

def uniqueId? (n : UInt8) : Option Der.Element → Option (Option Der.BitString)
  | none => some none
  | some f => do return some (← (f.content? (Der.primitiveTag n)).bind Der.BitString.ofContent?)

def extensions? : Option Der.Element → Option (Option (List Extension))
  | none => some none
  | some f => do
    let parts ← (← f.explicit? 3).parts? Der.sequenceTag
    return some (← parts.mapM Extension.ofElement?)

/-- The body of an element. Context-specific fields that stand before one with a larger number are passed over, if
`lenient` allows it. -/
def ofElement? (lenient : Bool) (e : Der.Element) : Option CertificateBody := do
  let (version, parts) := Der.field? 0 (← e.parts? Der.sequenceTag)
  match parts with
  | serial :: algorithm :: issuer :: validity :: subject :: key :: fields =>
    let (issuerId, rest) := Der.field? 1 fields
    let (subjectId, rest) := Der.field? 2 rest
    let (extensions, rest) := Der.field? 3 rest
    let used := issuerId.toList ++ subjectId.toList ++ extensions.toList
    let body : CertificateBody := {
      version := ← version? version
      serial := ← SerialNumber.ofElement? serial
      algorithm := ← Der.AlgorithmIdentifier.ofElement? algorithm
      issuer := ← Name.ofElement? issuer
      validity := ← Validity.ofElement? validity
      subject := ← Name.ofElement? subject
      publicKey := ← Der.PublicKeyInfo.ofElement? key
      issuerId := ← uniqueId? 1 issuerId
      subjectId := ← uniqueId? 2 subjectId
      extensions := ← extensions? extensions }
    if rest = [] ∧ (lenient ∨ used = fields) then some body else none
  | _ => none

def encode (b : CertificateBody) : Bytes := b.toElement.encode

end CertificateBody

structure Certificate where
  body : CertificateBody
  algorithm : Der.AlgorithmIdentifier
  signature : Der.BitString
deriving DecidableEq

namespace Certificate

def toElement (c : Certificate) : Der.Element :=
  .sequence [c.body.toElement, c.algorithm.toElement, .ofBitString c.signature]

def ofElement? (lenient : Bool) (e : Der.Element) : Option Certificate := do
  match ← e.parts? Der.sequenceTag with
  | [b, a, s] =>
    return ⟨← CertificateBody.ofElement? lenient b, ← Der.AlgorithmIdentifier.ofElement? a, ← s.bitString?⟩
  | _ => none

def encode (c : Certificate) : Bytes := c.toElement.encode

def decode? (b : Bytes) : Option Certificate := (Der.Element.ofBytes? b).bind (ofElement? true)

def extensions (c : Certificate) : List Extension := c.body.extensions.getD []

def basicConstraints? (c : Certificate) : Option BasicConstraints :=
  Extension.find? .basicConstraints BasicConstraints.ofElement? c.extensions

def keyUsage? (c : Certificate) : Option KeyUsage := Extension.find? .keyUsage KeyUsage.ofElement? c.extensions

def extendedUsages? (c : Certificate) : Option (List Der.Oid) :=
  Extension.find? .extendedKeyUsage Extension.usages? c.extensions

def subjectKeyId? (c : Certificate) : Option Bytes :=
  Extension.find? .subjectKeyId Der.Element.octets? c.extensions

def isCa (c : Certificate) : Bool := c.basicConstraints?.any BasicConstraints.ca

/-- Whether the subject of a certificate is its issuer, by name. -/
def isSelfIssued (c : Certificate) : Bool := c.body.subject == c.body.issuer

def isValidAt (c : Certificate) (now : Int) : Bool := c.body.validity.contains now

end Certificate

end Signet
