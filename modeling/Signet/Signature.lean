import Signet.Der.Integer
import Signet.Error

/-!
# Signatures

A signature is a pair of 256-bit numbers. A rich signature carries the coordinates of the ephemeral point too.
It is written as a sequence of two or of four integers.
-/

namespace Signet

abbrev Word256.size : Nat := 0x10000000000000000000000000000000000000000000000000000000000000000

abbrev Word256 := Fin Word256.size

def Word256.ofNat (n : Nat) : Word256 := Fin.ofNat Word256.size n

def Word256.bytes (w : Word256) : Bytes := Bytes.ofNat 32 w.val

/-- A signature, with the ephemeral point of a rich one. -/
structure Signature where
  r : Word256
  s : Word256
  point : Option (Word256 × Word256) := none
deriving DecidableEq, Repr

namespace Signature

/-- A number that takes at most 32 bytes. -/
def word (n : Nat) : Except CryptoError Word256 :=
  if h : n < Word256.size then .ok ⟨n, h⟩
  else .error (.malformedSignature (.longInteger (Der.shortBytes n).length))

/-- The integers that a byte string is the sequence of. -/
def integers? (b : Bytes) : Option (List Nat) := do
  let e ← Der.Element.ofBytes? b
  let parts ← e.parts? Der.sequenceTag
  parts.mapM Der.Element.nat?

def ofRichDer (b : Bytes) : Except CryptoError Signature :=
  match integers? b with
  | some [r, s, x, y] => do
    let r ← word r
    let s ← word s
    let x ← word x
    let y ← word y
    return ⟨r, s, some (x, y)⟩
  | _ => .error (.malformedSignature .encoding)

def ofDer (b : Bytes) : Except CryptoError Signature :=
  match integers? b with
  | some [r, s] => do
    let r ← word r
    let s ← word s
    return ⟨r, s, none⟩
  | _ => ofRichDer b

def toDer (g : Signature) : Bytes :=
  let carried := match g.point with
    | none => []
    | some (x, y) => [x, y]
  (Der.Element.sequence ((g.r :: g.s :: carried).map fun w => .ofNat w.val)).encode

def plain (g : Signature) : Signature := ⟨g.r, g.s, none⟩

/-- Both numbers, in 32 bytes each. -/
def fixedBytes (g : Signature) : Bytes := g.r.bytes ++ g.s.bytes

def describe (g : Signature) : String :=
  "EcSignature \x7b r: " ++ Text.quote (Hex.encode g.r.bytes) ++ ", s: " ++ Text.quote (Hex.encode g.s.bytes)
    ++ ", rich: " ++ (if g.point.isSome then "true" else "false") ++ " \x7d"

end Signature

end Signet
