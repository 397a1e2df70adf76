import Signet.Modular

/-!
# Elliptic curves

Curves `y² = x³ + ax + b` over the residues of a prime, with a base point of prime order, and the two curves
of the signature suites. The group law is the chord and tangent law on affine points.
-/

namespace Signet

/-- The curve `y² = x³ + ax + b` modulo `p` with the base point `(gx, gy)` of order `n`. -/
structure Curve where
  p : Nat
  a : Nat
  b : Nat
  n : Nat
  gx : Nat
  gy : Nat
deriving DecidableEq, Repr

inductive Point where
  | infinity
  | affine (x y : Nat)
deriving DecidableEq, Repr

namespace Curve

def p256 : Curve where
  p := 0xffffffff00000001000000000000000000000000ffffffffffffffffffffffff
  a := 0xffffffff00000001000000000000000000000000fffffffffffffffffffffffc
  b := 0x5ac635d8aa3a93e7b3ebbd55769886bc651d06b0cc53b0f63bce3c3e27d2604b
  n := 0xffffffff00000000ffffffffffffffffbce6faada7179e84f3b9cac2fc632551
  gx := 0x6b17d1f2e12c4247f8bce6e563a440f277037d812deb33a0f4a13945d898c296
  gy := 0x4fe342e2fe1a7f9b8ee7eb4a7c0f9e162bce33576b315ececbb6406837bf51f5

def sm2 : Curve where
  p := 0xfffffffeffffffffffffffffffffffffffffffff00000000ffffffffffffffff
  a := 0xfffffffeffffffffffffffffffffffffffffffff00000000fffffffffffffffc
  b := 0x28e9fa9e9d9f5e344d5a9e4bcf6509a7f39789f515ab8f92ddbcbd414d940e93
  n := 0xfffffffeffffffffffffffffffffffff7203df6b21c6052b53bbf40939d54123
  gx := 0x32c4ae2c1f1981195f9904466a39c9948fe30bbff2660be1715a4589334c74c7
  gy := 0xbc3736a2f4f6779c59bdcee36b692153d0a9877cc62a474002df32e52139f0a0

variable (C : Curve)

def base : Point := .affine C.gx C.gy

def rhs (x : Nat) : Nat := ((x * x % C.p + C.a) * x + C.b) % C.p

/-- Whether `(x, y)` is a point of the curve with reduced coordinates. -/
def contains (x y : Nat) : Bool := x < C.p && y < C.p && y * y % C.p == C.rhs x

/-- The third point of the line through `(x, y)` and a point at `x'` with the slope `l`, reflected. -/
def lineSum (l x y x' : Nat) : Point :=
  let x₃ := Modular.sub C.p (Modular.sub C.p (l * l) x) x'
  .affine x₃ (Modular.sub C.p (l * Modular.sub C.p x x₃) y)

def add : Point → Point → Point
  | .infinity, Q => Q
  | P, .infinity => P
  | .affine x₁ y₁, .affine x₂ y₂ =>
    if x₁ = x₂ then
      if y₁ = y₂ ∧ y₁ ≠ 0 then
        C.lineSum ((3 * x₁ * x₁ + C.a) * Modular.inv C.p (2 * y₁)) x₁ y₁ x₂
      else .infinity
    else
      C.lineSum (Modular.sub C.p y₁ y₂ * Modular.inv C.p (Modular.sub C.p x₁ x₂)) x₁ y₁ x₂

def neg : Point → Point
  | .infinity => .infinity
  | .affine x y => .affine x (Modular.neg C.p y)

def nsmul (k : Nat) (P : Point) : Point :=
  if k = 0 then .infinity
  else if k % 2 = 1 then C.add (nsmul (k / 2) (C.add P P)) P
  else nsmul (k / 2) (C.add P P)
termination_by k
decreasing_by all_goals omega

end Curve

/-- The first coordinate of a point; the point at infinity counts as 0. -/
def Point.x : Point → Nat
  | .infinity => 0
  | .affine x _ => x

end Signet
