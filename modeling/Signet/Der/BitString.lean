import Signet.Der.Element

/-!
# Strings and truth values in DER
-/

namespace Signet.Der

/-- A BIT STRING: bytes, of the last of which some low bits are unused. -/
structure BitString where
  unused : UInt8
  bytes : Bytes
deriving DecidableEq, Repr

namespace BitString

def ofBytes (b : Bytes) : BitString := ⟨0, b⟩

/-- The bytes of a bit string that uses them completely. -/
def whole? (s : BitString) : Option Bytes := if s.unused = 0 then some s.bytes else none

def content (s : BitString) : Bytes := s.unused :: s.bytes

def ofContent? : Bytes → Option BitString
  | [] => none
  | u :: b => if 7 < u ∨ (u ≠ 0 ∧ b = []) then none else some ⟨u, b⟩

/-- The bits, the first one being the high bit of the first byte. -/
def bits (s : BitString) : List Bool :=
  let all := s.bytes.flatMap fun x => (List.range 8).map fun i => x.toNat.testBit (7 - i)
  all.take (all.length - s.unused.toNat)

end BitString

namespace Element

def ofBitString (s : BitString) : Element := ⟨bitStringTag, s.content⟩

def bitString? (e : Element) : Option BitString := (e.content? bitStringTag).bind BitString.ofContent?

def ofOctets (b : Bytes) : Element := ⟨octetStringTag, b⟩

def octets? (e : Element) : Option Bytes := e.content? octetStringTag

def ofBool (v : Bool) : Element := ⟨booleanTag, [if v then 0xff else 0]⟩

def bool? (e : Element) : Option Bool :=
  if e.tag ≠ booleanTag then none
  else if e.content = [0xff] then some true
  else if e.content = [0] then some false
  else none

end Element

end Signet.Der
