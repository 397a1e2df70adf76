import Signet.Der.Element

/-!
# Object identifiers

An identifier is a list of numbers, its arcs. The first two share a byte; each later one is written in groups
of seven bits, of which all but the last have the high bit set.
-/

namespace Signet.Der

/-- The arcs after the first two. An arc takes at most five bytes, and the fifth one is below 16; an arc is
read modulo `2 ^ 32`. `size` counts the bytes of the arc read so far and `value` is their value. -/
def laterArcs? : Bytes → (size value : Nat) → Option (List Nat)
  | [], size, _ => if size = 0 then some [] else none
  | x :: b, size, value =>
    if size ≥ 4 ∧ x ≥ 16 then none
    else
      let v := (value * 128 + x.toNat % 128) % UInt32.size
      if x < 128 then (laterArcs? b 0 0).map (v :: ·) else laterArcs? b (size + 1) v

/-- The arcs of the identifier with the given content of 3 to 39 bytes. -/
def arcs? (b : Bytes) : Option (List Nat) :=
  match b with
  | [] => none
  | x :: rest =>
    if 3 ≤ b.length ∧ b.length ≤ 39 ∧ x < 120 then
      (laterArcs? rest 0 0).map (x.toNat / 40 :: x.toNat % 40 :: ·)
    else none

/-- An object identifier, by its content. -/
structure Oid where
  content : Bytes
  valid : (arcs? content).isSome := by decide
deriving DecidableEq, Repr

namespace Oid

def ofContent? (b : Bytes) : Option Oid := if h : (arcs? b).isSome then some ⟨b, h⟩ else none

def arcs (o : Oid) : List Nat := (arcs? o.content).getD []

def toString (o : Oid) : String := ".".intercalate (o.arcs.map Nat.repr)

def ecPublicKey : Oid := { content := [0x2a, 0x86, 0x48, 0xce, 0x3d, 0x02, 0x01] }

def p256 : Oid := { content := [0x2a, 0x86, 0x48, 0xce, 0x3d, 0x03, 0x01, 0x07] }

def sm2 : Oid := { content := [0x2a, 0x81, 0x1c, 0xcf, 0x55, 0x01, 0x82, 0x2d] }

def ecdsaWithSha256 : Oid := { content := [0x2a, 0x86, 0x48, 0xce, 0x3d, 0x04, 0x03, 0x02] }

def sm2WithSm3 : Oid := { content := [0x2a, 0x81, 0x1c, 0xcf, 0x55, 0x01, 0x83, 0x75] }

end Oid

namespace Element

def ofOid (o : Oid) : Element := ⟨oidTag, o.content⟩

def oid? (e : Element) : Option Oid := (e.content? oidTag).bind Oid.ofContent?

end Element

end Signet.Der
