import Signet.Cipher.Cbc
import Signet.Proofs.Cipher.Block
import Signet.Proofs.Cipher.Padding

/-!
# Chaining is undone

Blocks that were chained are unchained after the same initial block, and the other way round. So a ciphertext is read
exactly when it is the written form of a message.
-/

namespace Signet.Cipher

namespace Cbc

variable {C : BlockCipher}

theorem unchain_chain (hC : C.Inverts) (v : Block) (bs : List Block) :
    unchain C.decrypt v (chain C.encrypt v bs) = bs := by
  induction bs generalizing v with
  | nil => rfl
  | cons b bs ih => rw [chain, unchain, hC, Block.xor_xor, ih]

theorem chain_unchain (hC : C.Inverts) (v : Block) (cs : List Block) :
    chain C.encrypt v (unchain C.decrypt v cs) = cs := by
  induction cs generalizing v with
  | nil => rfl
  | cons c cs ih => rw [unchain, chain, Block.xor_xor, hC.encrypt_decrypt, ih]

theorem length_chain (enc : Block → Block) (v : Block) (bs : List Block) : (chain enc v bs).length = bs.length := by
  induction bs generalizing v with
  | nil => rfl
  | cons b bs ih => rw [chain, List.length_cons, ih, List.length_cons]

/-- The written form of a message without its initial block. -/
def body (C : BlockCipher) (iv : Block) (message : Bytes) : Bytes :=
  Block.join (chain C.encrypt iv (Block.split (Block.pad message)))

theorem encrypt_eq (C : BlockCipher) (iv : Block) (message : Bytes) :
    encrypt C iv message = body C iv message ++ iv.toBytes := rfl

theorem length_body (C : BlockCipher) (iv : Block) (message : Bytes) :
    (body C iv message).length = 16 * (message.length / 16 + 1) := by
  rw [body, Block.length_join, length_chain, ← Block.length_join, Block.join_split (Block.length_pad_mod message),
    Block.length_pad]

theorem decrypt?_body (hC : C.Inverts) (iv : Block) (message : Bytes) :
    decrypt? C iv (body C iv message) = some message := by
  rw [decrypt?, body, Block.split_join, unchain_chain hC, Block.join_split (Block.length_pad_mod message),
    Block.unpad?_pad]

/-- Whole blocks that are read as a message are the written form of this message. -/
theorem body_of_decrypt? (hC : C.Inverts) {iv : Block} {b message : Bytes} (hb : b.length % 16 = 0)
    (h : decrypt? C iv b = some message) : body C iv message = b := by
  have hwhole : (Block.join (unchain C.decrypt iv (Block.split b))).length % 16 = 0 := by
    rw [Block.length_join]
    omega
  rw [body, Block.pad_of_unpad? hwhole h, Block.split_join, chain_unchain hC, Block.join_split hb]

end Cbc

end Signet.Cipher
