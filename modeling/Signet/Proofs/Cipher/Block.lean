import Signet.Cipher.Block
import Mathlib.Data.Fintype.EquivFin
import Mathlib.Data.Fintype.Pi

/-!
# Sums and permutations of blocks
-/

namespace Signet.Cipher

/-! ## Sums of bytes -/

theorem xor_xor_cancel_left (x y : UInt8) : x ^^^ (x ^^^ y) = y := by
  rw [← UInt8.xor_assoc, UInt8.xor_self, UInt8.zero_xor]

theorem xor_xor_cancel_right (x y : UInt8) : x ^^^ y ^^^ y = x := by
  rw [UInt8.xor_assoc, UInt8.xor_self, UInt8.xor_zero]

theorem xor_left_comm (x y z : UInt8) : x ^^^ (y ^^^ z) = y ^^^ (x ^^^ z) := by
  rw [← UInt8.xor_assoc, UInt8.xor_comm x y, UInt8.xor_assoc]

theorem xor_xor_xor_comm (w x y z : UInt8) : w ^^^ x ^^^ (y ^^^ z) = w ^^^ y ^^^ (x ^^^ z) := by
  rw [UInt8.xor_assoc, xor_left_comm x, ← UInt8.xor_assoc]

theorem Block.xor_xor (a b : Block) : (a.xor b).xor b = a := by
  ext i hi
  rw [xor, xor, Vector.getElem_zipWith, Vector.getElem_zipWith, xor_xor_cancel_right]

/-! ## Ciphers -/

instance : Finite Block := by
  refine Finite.of_injective (fun (b : Block) (i : Fin 16) => (b.get i).toFin) fun a b h => ?_
  exact Vector.ext fun i hi => UInt8.toFin_inj.mp (congrFun h ⟨i, hi⟩)

/-- Decryption undoes encryption. -/
def BlockCipher.Inverts (C : BlockCipher) : Prop := ∀ b, C.decrypt (C.encrypt b) = b

/-- As there are only finitely many blocks, encryption undoes decryption too. -/
theorem BlockCipher.Inverts.encrypt_decrypt {C : BlockCipher} (h : C.Inverts) (b : Block) :
    C.encrypt (C.decrypt b) = b := by
  have hinj : Function.Injective C.encrypt := Function.LeftInverse.injective h
  obtain ⟨a, rfl⟩ := Finite.surjective_of_injective hinj b
  rw [h a]

end Signet.Cipher
