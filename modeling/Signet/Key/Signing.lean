import Signet.Key.Basic
import Signet.Signature
import Signet.Signing.Ecdsa
import Signet.Signing.Nonce
import Signet.Signing.Sm2

/-!
# Signing and verifying with keys
-/

namespace Signet

/-- A digest as a residue modulo the order of P-256: the number that its first 32 bytes write. -/
def digestScalar (b : Bytes) : Nat := Bytes.toNat (b.take 32) % Curve.p256.n

/-- The number that 32 bytes write, if it lies between 1 and `n - 1`. -/
def Curve.reduced? (C : Curve) (w : Word256) : Option Nat :=
  if 1 ≤ w.val ∧ w.val < C.n then some w.val else none

namespace Key

def pack (r s : Nat) (point : Option (Word256 × Word256)) : Signature :=
  ⟨Word256.ofNat r, Word256.ofNat s, point⟩

/-- The plain signature with the numbers that a nonce gives; refused if there is no nonce or it gives none. -/
def signWith (nonce : Option Nat) (numbers? : Nat → Option (Nat × Nat)) : Except CryptoError Signature :=
  match nonce with
  | none => .error .signing
  | some k =>
    match numbers? k with
    | none => .error .signing
    | some (r, s) => .ok (pack r s none)

def signEcdsa (d : Nat) (message : Bytes) : Except CryptoError Signature :=
  let C := Curve.p256
  let e := digestScalar (HashAlgorithm.sha256.digest message).bytes
  signWith (Signing.nonce? .sha256 C.n d e) fun k => Signing.Ecdsa.sign? C d e k (C.mul k C.base)

def signSm2 (d : Nat) (Q : Point) (message : Bytes) : Except CryptoError Signature :=
  let C := Curve.sm2
  let e := Signing.Sm2.digest C Q message
  signWith (Signing.nonce? .sm3 C.n d e) fun k => Signing.Sm2.sign? C d e k

/-- The rich signature of the digest `e` by an ECDSA key, with random nonces: the first one that gives nonzero
numbers. -/
def richSignature (d e : Nat) (entropy : Entropy) : Except CryptoError (Signature × Entropy) :=
  match _h : entropy.drawScalar? Curve.p256.n with
  | none => .error .rng
  | some (k, rest) =>
    let R := Curve.p256.mul k Curve.p256.base
    match Signing.Ecdsa.sign? Curve.p256 d e k R, R with
    | some (r, s), .affine x y =>
      .ok (pack r s (some (Word256.ofNat x, Word256.ofNat y)), rest)
    | _, _ => richSignature d e rest
termination_by entropy.length
decreasing_by exact Entropy.length_lt_of_drawScalar? ‹entropy.drawScalar? Curve.p256.n = some (k, rest)›

def sign (k : Key) (message : Bytes) : Except CryptoError Bytes :=
  match k.secret with
  | none => .error .publicKeyCannotSign
  | some d => do
    let g ← match k.suite with
      | .ecdsaP256 => signEcdsa d message
      | .sm2 => signSm2 d k.point message
    return g.toDer

def signRich (k : Key) (message : Bytes) (entropy : Entropy) : Except CryptoError (Signature × Entropy) :=
  match k.secret with
  | none => .error .publicKeyCannotSign
  | some d => richSignature d (digestScalar (HashAlgorithm.sha256.digest message).bytes) entropy

/-- The written signature of a message for batch verification. SM2 keys sign as usual. -/
def signForBatch (k : Key) (message : Bytes) (entropy : Entropy) : Except CryptoError (Bytes × Entropy) :=
  match k.suite with
  | .ecdsaP256 => do
    let (g, entropy) ← k.signRich message entropy
    return (g.toDer, entropy)
  | .sm2 => do
    let b ← k.sign message
    return (b, entropy)

def accepts (k : Key) (message : Bytes) (r s : Nat) : Bool :=
  match k.suite with
  | .ecdsaP256 =>
    Signing.Ecdsa.verify .p256 k.point (digestScalar (HashAlgorithm.sha256.digest message).bytes) r s
  | .sm2 => Signing.Sm2.verify .sm2 k.point (Signing.Sm2.digest .sm2 k.point message) r s

/-- Checks the written signature of a message. The point of a rich signature is not looked at. -/
def verify (k : Key) (message signature : Bytes) : Except CryptoError Unit := do
  let g ← Signature.ofDer signature
  match k.suite.curve.reduced? g.r, k.suite.curve.reduced? g.s with
  | some r, some s => if k.accepts message r s then return () else throw .invalidSignature
  | _, _ => throw .scalarOutOfRange

end Key

end Signet
