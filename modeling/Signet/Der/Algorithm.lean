import Signet.Der.BitString
import Signet.Der.Oid

/-!
# Algorithm identifiers and public key records

An algorithm identifier is a sequence of an object identifier and at most one parameter of any type. A public
key record is a sequence of an algorithm identifier and a bit string.
-/

namespace Signet.Der

structure AlgorithmIdentifier where
  algorithm : Oid
  parameters : Option Element
deriving DecidableEq, Repr

structure PublicKeyInfo where
  algorithm : AlgorithmIdentifier
  key : BitString
deriving DecidableEq, Repr

namespace AlgorithmIdentifier

def ofCurve (o : Oid) : AlgorithmIdentifier := ⟨.ecPublicKey, some (.ofOid o)⟩

def toElement (a : AlgorithmIdentifier) : Element := .sequence (.ofOid a.algorithm :: a.parameters.toList)

def ofElement? (e : Element) : Option AlgorithmIdentifier := do
  match ← e.parts? sequenceTag with
  | [o] => return ⟨← o.oid?, none⟩
  | [o, p] => return ⟨← o.oid?, some p⟩
  | _ => none

def parameterOid? (a : AlgorithmIdentifier) : Option Oid := a.parameters.bind Element.oid?

end AlgorithmIdentifier

namespace PublicKeyInfo

def toElement (k : PublicKeyInfo) : Element := .sequence [k.algorithm.toElement, .ofBitString k.key]

def ofElement? (e : Element) : Option PublicKeyInfo := do
  match ← e.parts? sequenceTag with
  | [a, k] => return ⟨← AlgorithmIdentifier.ofElement? a, ← k.bitString?⟩
  | _ => none

def encode (k : PublicKeyInfo) : Bytes := k.toElement.encode

def decode? (b : Bytes) : Option PublicKeyInfo := (Element.ofBytes? b).bind ofElement?

end PublicKeyInfo

end Signet.Der
