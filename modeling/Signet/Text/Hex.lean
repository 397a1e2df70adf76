import Signet.Bytes

/-!
# Hexadecimal text

Two digits a byte, written in lower case and read in either case.
-/

namespace Signet.Hex

/-- The ways in which a text fails to be the hexadecimal form of a byte string of the expected length. -/
inductive Error where
  | oddLength
  | badDigit (digit : Char) (position : Nat)
  | wrongLength
deriving DecidableEq, Repr

def digit (n : Nat) : Char := if n < 10 then Char.ofNat (48 + n) else Char.ofNat (87 + n)

def digitValue? (c : UInt8) : Option UInt8 :=
  if 48 ≤ c ∧ c ≤ 57 then some (c - 48)
  else if 97 ≤ c ∧ c ≤ 102 then some (c - 87)
  else if 65 ≤ c ∧ c ≤ 70 then some (c - 55)
  else none

def digits (b : Bytes) : List Char := b.flatMap fun x => [digit (x.toNat / 16), digit (x.toNat % 16)]

def encode (b : Bytes) : String := String.ofList (digits b)

/-- The value of the digit `c` that stands at `position`. -/
def readDigit (c : UInt8) (position : Nat) : Except Error UInt8 :=
  match digitValue? c with
  | some v => .ok v
  | none => .error (.badDigit (Char.ofNat c.toNat) position)

def decodePairs : Bytes → Nat → Except Error Bytes
  | hi :: lo :: rest, position => do
    let h ← readDigit hi position
    let l ← readDigit lo (position + 1)
    let b ← decodePairs rest (position + 2)
    return (h * 16 + l) :: b
  | [_], _ => .error .oddLength
  | [], _ => .ok []

/-- Reads a hexadecimal text of any even length; positions count the bytes of its UTF-8 form. -/
def decode (s : String) : Except Error Bytes :=
  let t := Bytes.ofString s
  if t.length % 2 = 1 then .error .oddLength else decodePairs t 0

def ofNat (n : Nat) : String := String.ofList (Nat.toDigits 16 n)

end Signet.Hex
