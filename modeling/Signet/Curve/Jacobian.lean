import Signet.Curve.Basic

/-!
# Jacobian coordinates

The triple `(x, y, z)` with `z ≠ 0` stands for the point `(x / z², y / z³)`, and one with `z = 0` for the
point at infinity. Sums and multiples are computed on triples, so that only the last step divides.
-/

namespace Signet.Curve

structure Jacobian where
  x : Nat
  y : Nat
  z : Nat
deriving DecidableEq, Repr

namespace Jacobian

variable (C : Curve)

def infinity : Jacobian := ⟨1, 1, 0⟩

def ofPoint : Point → Jacobian
  | .infinity => infinity
  | .affine x y => ⟨x, y, 1⟩

/-- The point that a triple stands for. -/
def toPoint (P : Jacobian) : Point :=
  if P.z = 0 then .infinity
  else
    let i := Modular.inv C.p P.z
    let i2 := i * i % C.p
    .affine (P.x * i2 % C.p) (P.y * (i2 * i % C.p) % C.p)

def double (P : Jacobian) : Jacobian :=
  let y2 := P.y * P.y % C.p
  let z2 := P.z * P.z % C.p
  let s := 4 * P.x * y2 % C.p
  let m := (3 * P.x * P.x + C.a * (z2 * z2 % C.p)) % C.p
  let x := Modular.sub C.p (m * m) (2 * s)
  ⟨x, Modular.sub C.p (m * Modular.sub C.p s x) (8 * y2 * y2), 2 * P.y * P.z % C.p⟩

def add (P Q : Jacobian) : Jacobian :=
  if P.z = 0 then Q
  else if Q.z = 0 then P
  else
    let pz2 := P.z * P.z % C.p
    let qz2 := Q.z * Q.z % C.p
    let u₁ := P.x * qz2 % C.p
    let u₂ := Q.x * pz2 % C.p
    let s₁ := P.y * (qz2 * Q.z % C.p) % C.p
    let s₂ := Q.y * (pz2 * P.z % C.p) % C.p
    if u₁ = u₂ then
      if s₁ = s₂ then double C P else infinity
    else
      let h := Modular.sub C.p u₂ u₁
      let r := Modular.sub C.p s₂ s₁
      let h2 := h * h % C.p
      let h3 := h2 * h % C.p
      let v := u₁ * h2 % C.p
      let x := Modular.sub C.p (Modular.sub C.p (r * r) h3) (2 * v)
      ⟨x, Modular.sub C.p (r * Modular.sub C.p v x) (s₁ * h3), P.z * Q.z % C.p * h % C.p⟩

def nsmul (k : Nat) (P : Jacobian) : Jacobian :=
  if k = 0 then infinity
  else if k % 2 = 1 then add C (double C (nsmul (k / 2) P)) P
  else double C (nsmul (k / 2) P)
termination_by k
decreasing_by all_goals omega

end Jacobian

def mul (C : Curve) (k : Nat) (P : Point) : Point :=
  (Jacobian.nsmul C k (.ofPoint P)).toPoint C

/-- The sum of `k` copies of the base point and `l` copies of `P`. -/
def mulAdd (C : Curve) (k l : Nat) (P : Point) : Point :=
  (Jacobian.add C (Jacobian.nsmul C k (.ofPoint C.base)) (Jacobian.nsmul C l (.ofPoint P))).toPoint C

end Signet.Curve
