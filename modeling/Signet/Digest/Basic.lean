import Signet.Digest.Sha256
import Signet.Digest.Sm3
import Signet.Text.Hex

/-!
# Digests

The hash functions of the signature suites and their digests of 32 bytes.
-/

namespace Signet

structure Digest where
  bytes : Bytes
  size : bytes.length = 32
deriving DecidableEq

namespace Digest

def ofBytes? (b : Bytes) : Option Digest := if h : b.length = 32 then some ⟨b, h⟩ else none

def zero : Digest := ⟨List.replicate 32 0, rfl⟩

def hex (d : Digest) : String := Hex.encode d.bytes

def ofHex (s : String) : Except Hex.Error Digest := do
  let b ← Hex.decode s
  match ofBytes? b with
  | some d => return d
  | none => throw .wrongLength

def describe (d : Digest) : String := "Digest32(" ++ d.hex ++ ")"

/-- The order of digests, by their bytes. -/
def cmp (d e : Digest) : Ordering := compare d.bytes e.bytes

end Digest

inductive HashAlgorithm where
  | sha256
  | sm3
deriving DecidableEq, Repr

namespace HashAlgorithm

def name : HashAlgorithm → String
  | sha256 => "sha256"
  | sm3 => "sm3"

def title : HashAlgorithm → String
  | sha256 => "Sha256"
  | sm3 => "Sm3"

def ofName? (s : String) : Option HashAlgorithm :=
  if s = "sha256" then some sha256 else if s = "sm3" then some sm3 else none

def digest : HashAlgorithm → Bytes → Digest
  | sha256, b => ⟨Digest.Sha256.hash b, rfl⟩
  | sm3, b => ⟨Digest.Sm3.hash b, rfl⟩

/-- The keyed digest of a message (HMAC), for keys up to the block size. -/
def hmac (h : HashAlgorithm) (key message : Bytes) : Bytes :=
  let k := key ++ List.replicate (Digest.blockSize - key.length) 0
  (h.digest (k.map (· ^^^ 0x5c) ++ (h.digest (k.map (· ^^^ 0x36) ++ message)).bytes)).bytes

end HashAlgorithm

end Signet
