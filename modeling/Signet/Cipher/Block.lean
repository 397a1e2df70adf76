import Signet.Bytes

/-!
# Blocks of 16 bytes

Both ciphers work on blocks of 16 bytes. A message of any length is padded to whole blocks: `k` bytes of the
value `k` are added, where `k` is between 1 and 16.
-/

namespace Signet.Cipher

abbrev Block := Vector UInt8 16

/-- A permutation of blocks and its inverse. -/
structure BlockCipher where
  encrypt : Block → Block
  decrypt : Block → Block

namespace Block

def xor (a b : Block) : Block := Vector.zipWith (· ^^^ ·) a b

/-- The first 16 bytes of a byte string that has as many. -/
def ofBytes? (b : Bytes) : Option Block :=
  if h : b.length = 16 then some ⟨b.toArray, by simpa using h⟩ else none

def toBytes (b : Block) : Bytes := b.toList

/-- The whole blocks of a byte string. -/
def split (b : Bytes) : List Block :=
  if h : (b.take 16).length = 16 then ⟨(b.take 16).toArray, by simpa using h⟩ :: split (b.drop 16) else []
termination_by b.length
decreasing_by simp only [List.length_take, List.length_drop] at *; omega

def join (bs : List Block) : Bytes := bs.flatMap toBytes

def pad (b : Bytes) : Bytes :=
  let k := 16 - b.length % 16
  b ++ List.replicate k (UInt8.ofNat k)

def unpad? (b : Bytes) : Option Bytes :=
  let k := (b.getLast?.getD 0).toNat
  if 1 ≤ k ∧ k ≤ 16 ∧ k ≤ b.length ∧ b.drop (b.length - k) = List.replicate k (UInt8.ofNat k) then
    some (b.take (b.length - k))
  else none

end Block

end Signet.Cipher
