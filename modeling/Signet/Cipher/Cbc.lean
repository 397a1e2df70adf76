import Signet.Cipher.Block

/-!
# Cipher block chaining

Each block is added to the encryption of the one before it, the first one to an initial block. The written
form of a message is the encryption of its padded blocks followed by the initial block.
-/

namespace Signet.Cipher.Cbc

/-- The chained encryption of blocks after the block `v`. -/
def chain (enc : Block → Block) : (v : Block) → List Block → List Block
  | _, [] => []
  | v, b :: bs =>
    let c := enc (b.xor v)
    c :: chain enc c bs

/-- The blocks whose chained encryption after `v` is given. -/
def unchain (dec : Block → Block) : (v : Block) → List Block → List Block
  | _, [] => []
  | v, c :: cs => (dec c).xor v :: unchain dec c cs

def encrypt (C : BlockCipher) (iv : Block) (message : Bytes) : Bytes :=
  Block.join (chain C.encrypt iv (Block.split (Block.pad message))) ++ iv.toBytes

/-- The message of a ciphertext, given without its initial block. -/
def decrypt? (C : BlockCipher) (iv : Block) (ciphertext : Bytes) : Option Bytes :=
  Block.unpad? (Block.join (unchain C.decrypt iv (Block.split ciphertext)))

end Signet.Cipher.Cbc
