import Signet.Bytes
import Signet.Curve.Encoding
import Signet.Curve.Jacobian
import Signet.Digest.Basic

/-!
# The SM2 equations

All numbers are residues modulo the order of the curve. The digest of a message covers the identity of the signer,
the curve and the public key.
-/

namespace Signet.Signing.Sm2

/-- The identity of every signer: the text `1234567812345678`. -/
def identity : Bytes := [49, 50, 51, 52, 53, 54, 55, 56, 49, 50, 51, 52, 53, 54, 55, 56]

variable (C : Curve)

/-- The digest of the identity, the curve and the public key `Q`. -/
def signerDigest (Q : Point) : Bytes :=
  (HashAlgorithm.sm3.digest (Bytes.ofNat 2 (8 * identity.length) ++ identity
    ++ Bytes.ofNat 32 C.a ++ Bytes.ofNat 32 C.b ++ Bytes.ofNat 32 C.gx ++ Bytes.ofNat 32 C.gy
    ++ Curve.coordinates Q)).bytes

def digest (Q : Point) (message : Bytes) : Nat :=
  Bytes.toNat (HashAlgorithm.sm3.digest (signerDigest C Q ++ message)).bytes % C.n

/-- The two numbers of the signature of the digest `e` with the private key `d` and the nonce `k`; none in a
degenerate case. -/
def sign? (d e k : Nat) : Option (Nat × Nat) :=
  let r := (e + (C.mul k C.base).x) % C.n
  let s := Modular.inv C.n (1 + d) * Modular.sub C.n k (r * d) % C.n
  if r = 0 ∨ (r + k) % C.n = 0 ∨ (1 + d) % C.n = 0 ∨ s = 0 then none else some (r, s)

/-- Whether `(r, s)` is a signature of the digest `e` under the public key `Q`. -/
def verify (Q : Point) (e r s : Nat) : Bool :=
  let t := (r + s) % C.n
  t != 0 && (e + (C.mulAdd s t Q).x) % C.n == r

end Signet.Signing.Sm2
