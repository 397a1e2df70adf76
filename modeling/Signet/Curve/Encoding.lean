import Signet.Bytes
import Signet.Curve.Basic

/-!
# Encoded points

A point of a 256-bit curve is written as a tag and one or two coordinates of 32 bytes: 04 with both, 02 or 03
with the first and the parity of the second, 05 with the first where the second is the smaller of the two
possible ones.
-/

namespace Signet.Curve

variable (C : Curve)

def coordinateSize : Nat := 32

def coordinates : Point → Bytes
  | .infinity => []
  | .affine x y => Bytes.ofNat coordinateSize x ++ Bytes.ofNat coordinateSize y

/-- The written form with both coordinates. The point at infinity is a single zero byte. -/
def encodePoint : Point → Bytes
  | .infinity => [0]
  | P => 4 :: coordinates P

/-- A second coordinate for `x`, if there is one. -/
def ordinate? (x : Nat) : Option Nat := if x < C.p then Modular.sqrt? C.p (C.rhs x) else none

def point? (x y : Nat) : Option Point := if C.contains x y then some (.affine x y) else none

/-- Reads a written form of a point other than infinity. -/
def decodePoint? (b : Bytes) : Option Point :=
  match b with
  | [] => none
  | tag :: c =>
    if tag = 4 then
      if c.length = 2 * coordinateSize then
        C.point? (Bytes.toNat (c.take coordinateSize)) (Bytes.toNat (c.drop coordinateSize))
      else none
    else if c.length = coordinateSize then
      let x := Bytes.toNat c
      if tag = 2 ∨ tag = 3 then
        (C.ordinate? x).map fun y => .affine x (if y % 2 = tag.toNat % 2 then y else Modular.neg C.p y)
      else if tag = 5 then
        (C.ordinate? x).map fun y => .affine x (min y (Modular.neg C.p y))
      else none
    else none

end Signet.Curve
