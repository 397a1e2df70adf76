import Signet.Curve.Jacobian

/-!
# The ECDSA equations

All numbers are residues modulo the order of the curve.
-/

namespace Signet.Signing.Ecdsa

variable (C : Curve)

/-- The two numbers of the signature of the digest `e` with the private key `d` and the nonce `k`, whose multiple
of the base point is `R`; none when one of them is 0. -/
def sign? (d e k : Nat) (R : Point) : Option (Nat × Nat) :=
  let r := R.x % C.n
  let s := Modular.inv C.n k * (e + r * d) % C.n
  if r = 0 ∨ s = 0 then none else some (r, s)

/-- Whether `(r, s)` is a signature of the digest `e` under the public key `Q`. -/
def verify (Q : Point) (e r s : Nat) : Bool :=
  let w := Modular.inv C.n s
  (C.mulAdd (e * w % C.n) (r * w % C.n) Q).x % C.n == r

end Signet.Signing.Ecdsa
