import Signet.Digest.Basic

/-!
# Deterministic nonces

The nonce of a signature is drawn from a generator that is seeded with the private key and the digest. The generator
holds a key and a value, and each keyed digest of the value is both the next value and a candidate for the nonce.
-/

namespace Signet.Signing

/-- The state of the generator: a key and a value. -/
structure NonceState where
  key : Bytes
  value : Bytes
deriving DecidableEq, Repr

namespace NonceState

variable (h : HashAlgorithm)

def mix (s : NonceState) (data : Bytes) : NonceState :=
  let key := h.hmac s.key (s.value ++ data)
  ⟨key, h.hmac key s.value⟩

def seed (data : Bytes) : NonceState :=
  let s : NonceState := ⟨List.replicate 32 0, List.replicate 32 1⟩
  mix h (mix h s (0 :: data)) (1 :: data)

/-- The first candidate between 1 and `n - 1` among the next `tries` ones. -/
def candidate? (n : Nat) : (tries : Nat) → NonceState → Option Nat
  | 0, _ => none
  | tries + 1, s =>
    let value := h.hmac s.key s.value
    let k := Bytes.toNat value
    if 1 ≤ k ∧ k < n then some k else candidate? n tries (mix h ⟨s.key, value⟩ [0])

end NonceState

/-- The number of candidates that are looked at. Less than one in `2 ^ 31` candidates is refused. -/
def nonceTries : Nat := 1000

def nonce? (h : HashAlgorithm) (n d e : Nat) : Option Nat :=
  NonceState.candidate? h n nonceTries (NonceState.seed h (Bytes.ofNat 32 d ++ Bytes.ofNat 32 e))

end Signet.Signing
