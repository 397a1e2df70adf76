import Signet.Cipher.Aes
import Signet.Cipher.Cbc
import Signet.Cipher.Sm4
import Signet.Error
import Signet.Random.Entropy
import Signet.Text.Base64
import Signet.Text.Blank

/-!
# Cipher keys

A key of 128 bits for AES or SM4 with cipher block chaining. The written form of an encrypted message is its
ciphertext with the initial block at the end.
-/

namespace Signet

inductive CipherAlgorithm where
  | aes128
  | sm4
deriving DecidableEq, Repr

namespace CipherAlgorithm

def name : CipherAlgorithm → String
  | aes128 => "aes128"
  | sm4 => "sm4"

def title : CipherAlgorithm → String
  | aes128 => "Aes128"
  | sm4 => "Sm4"

def ofName? (s : String) : Option CipherAlgorithm :=
  if s = "aes128" then some aes128 else if s = "sm4" then some sm4 else none

/-- The cipher with the given name in either case; `aes` and `aes-128` are other names of AES. -/
def parse (s : String) : Except CryptoError CipherAlgorithm :=
  match if s.toLower = "aes" ∨ s.toLower = "aes-128" then some aes128 else ofName? s.toLower with
  | some a => .ok a
  | none => .error (.unsupportedAlgorithm s.toLower)

def withKey : CipherAlgorithm → Cipher.Block → Cipher.BlockCipher
  | aes128 => Cipher.Aes.cipher
  | sm4 => Cipher.Sm4.cipher

end CipherAlgorithm

structure CipherKey where
  algorithm : CipherAlgorithm
  key : Cipher.Block
deriving DecidableEq, Repr

namespace CipherKey

def drawBlock (e : Entropy) : Except CryptoError (Cipher.Block × Entropy) :=
  match e.draw? 16 with
  | none => .error .rng
  | some (b, e) =>
    match Cipher.Block.ofBytes? b with
    | none => .error .rng
    | some k => .ok (k, e)

def generate (a : CipherAlgorithm) (e : Entropy) : Except CryptoError (CipherKey × Entropy) := do
  let (k, e) ← drawBlock e
  return (⟨a, k⟩, e)

def ofBytes (a : CipherAlgorithm) (b : Bytes) : Except CryptoError CipherKey :=
  match Cipher.Block.ofBytes? b with
  | some k => .ok ⟨a, k⟩
  | none => .error (.invalidKeyLength b.length)

/-- Reads a key in base64; white space around it is ignored. -/
def ofBase64 (a : CipherAlgorithm) (s : String) : Except CryptoError CipherKey :=
  match Base64.decodeText? (Text.trim s) with
  | some b => ofBytes a b
  | none => .error .base64

def bytes (k : CipherKey) : Bytes := k.key.toBytes

def base64 (k : CipherKey) : String := Base64.encodeText k.bytes

def describe (k : CipherKey) : String := "CbcKey(" ++ k.algorithm.name ++ ", [REDACTED])"

def encryptWith (k : CipherKey) (iv : Cipher.Block) (message : Bytes) : Bytes :=
  Cipher.Cbc.encrypt (k.algorithm.withKey k.key) iv message

def encrypt (k : CipherKey) (message : Bytes) (e : Entropy) : Except CryptoError (Bytes × Entropy) := do
  let (iv, e) ← drawBlock e
  return (k.encryptWith iv message, e)

def decrypt (k : CipherKey) (b : Bytes) : Except CryptoError Bytes :=
  if b.length < 32 then .error (.invalidCiphertext (.short b.length))
  else if b.length % 16 ≠ 0 then .error (.invalidCiphertext (.ragged b.length))
  else
    match Cipher.Block.ofBytes? (b.drop (b.length - 16)) with
    | none => .error .invalidPadding
    | some iv =>
      match Cipher.Cbc.decrypt? (k.algorithm.withKey k.key) iv (b.take (b.length - 16)) with
      | some message => .ok message
      | none => .error .invalidPadding

end CipherKey

end Signet
