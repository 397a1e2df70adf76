import Signet.Der.Element

/-!
# DER integers

Integers are written in two's complement, most significant byte first, in as few bytes as possible.
-/

namespace Signet.Der

def natContent (n : Nat) : Bytes := Bytes.ofNat ((n.log2 + 1) / 8 + 1) n

def natOfContent? (b : Bytes) : Option Nat :=
  let n := Bytes.toNat b
  if natContent n = b then some n else none

/-- Whether a content is that of an integer of either sign. -/
def isIntegerContent : Bytes → Bool
  | [] => false
  | [_] => true
  | x :: y :: _ => !((x == 0 && y < 0x80) || (x == 0xff && 0x80 ≤ y))

namespace Element

def ofNat (n : Nat) : Element := ⟨integerTag, natContent n⟩

def nat? (e : Element) : Option Nat := (e.content? integerTag).bind natOfContent?

end Element

end Signet.Der
