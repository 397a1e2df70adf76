import Signet.Bytes

/-!
# Base64 text

The standard alphabet with padding. A byte string has exactly one written form: the padding is required and
the bits that it leaves over are zero.
-/

namespace Signet.Base64

def pad : UInt8 := 61

def symbol (n : Nat) : UInt8 :=
  if n < 26 then UInt8.ofNat (65 + n)
  else if n < 52 then UInt8.ofNat (71 + n)
  else if n < 62 then UInt8.ofNat (n - 4)
  else if n = 62 then 43
  else 47

def symbolValue? (c : UInt8) : Option Nat :=
  if 65 ≤ c ∧ c ≤ 90 then some (c.toNat - 65)
  else if 97 ≤ c ∧ c ≤ 122 then some (c.toNat - 71)
  else if 48 ≤ c ∧ c ≤ 57 then some (c.toNat + 4)
  else if c = 43 then some 62
  else if c = 47 then some 63
  else none

def encode : Bytes → Bytes
  | [] => []
  | [x] => [symbol (x.toNat / 4), symbol (x.toNat % 4 * 16), pad, pad]
  | [x, y] =>
    [symbol (x.toNat / 4), symbol (x.toNat % 4 * 16 + y.toNat / 16), symbol (y.toNat % 16 * 4), pad]
  | x :: y :: z :: rest =>
    symbol (x.toNat / 4) :: symbol (x.toNat % 4 * 16 + y.toNat / 16)
      :: symbol (y.toNat % 16 * 4 + z.toNat / 64) :: symbol (z.toNat % 64) :: encode rest

/-- The bytes of the last four characters, when they are padded. -/
def decodePadded (a b c d : UInt8) : Option Bytes := do
  let x ← symbolValue? a
  let y ← symbolValue? b
  if d ≠ pad then none
  else if c = pad then
    if y % 16 = 0 then some [UInt8.ofNat (x * 4 + y / 16)] else none
  else
    let z ← symbolValue? c
    if z % 4 = 0 then some [UInt8.ofNat (x * 4 + y / 16), UInt8.ofNat (y % 16 * 16 + z / 4)] else none

def decode? : Bytes → Option Bytes
  | [] => some []
  | a :: b :: c :: d :: rest =>
    if d = pad then (if rest = [] then decodePadded a b c d else none)
    else do
      let w ← symbolValue? a
      let x ← symbolValue? b
      let y ← symbolValue? c
      let z ← symbolValue? d
      let tail ← decode? rest
      return UInt8.ofNat (w * 4 + x / 16) :: UInt8.ofNat (x % 16 * 16 + y / 4)
        :: UInt8.ofNat (y % 4 * 64 + z) :: tail
  | _ => none

def encodeText (b : Bytes) : String := String.ofList ((encode b).map fun c => Char.ofNat c.toNat)

def decodeText? (s : String) : Option Bytes := decode? (Bytes.ofString s)

end Signet.Base64
