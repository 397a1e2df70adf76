import Signet.Cipher.Sm4
import Signet.Proofs.Cipher.Block
import Mathlib.Tactic.FinCases

/-!
# SM4 is a permutation

Words and blocks are the same data, and a round is undone by itself between two reversals of the words. So the rounds
with the round keys in reverse order undo encryption.
-/

namespace Signet.Cipher.Sm4

/-! ## Words and bytes -/

theorem toNat_word (a b c d : UInt8) :
    (word a b c d).toNat = 2 ^ 24 * a.toNat + 2 ^ 16 * b.toNat + 2 ^ 8 * c.toNat + d.toNat := by
  have ha := a.toNat_lt
  have hb := b.toNat_lt
  have hc := c.toNat_lt
  have hd := d.toNat_lt
  have hshift₁ : a.toNat <<< 24 % 2 ^ 32 = 2 ^ 24 * a.toNat := by
    rw [Nat.shiftLeft_eq]
    omega
  have hshift₂ : b.toNat <<< 16 % 2 ^ 32 = 2 ^ 16 * b.toNat := by
    rw [Nat.shiftLeft_eq]
    omega
  have hshift₃ : c.toNat <<< 8 % 2 ^ 32 = 2 ^ 8 * c.toNat := by
    rw [Nat.shiftLeft_eq]
    omega
  -- The bits of the four numbers do not overlap, so that `|||` adds them up.
  have hor₁ : 2 ^ 24 * a.toNat ||| 2 ^ 16 * b.toNat = 2 ^ 16 * (2 ^ 8 * a.toNat + b.toNat) := by
    rw [← Nat.two_pow_add_eq_or_of_lt (by omega)]
    omega
  have hor₂ : 2 ^ 16 * (2 ^ 8 * a.toNat + b.toNat) ||| 2 ^ 8 * c.toNat
      = 2 ^ 8 * (2 ^ 16 * a.toNat + 2 ^ 8 * b.toNat + c.toNat) := by
    rw [← Nat.two_pow_add_eq_or_of_lt (by omega)]
    omega
  have hor₃ : 2 ^ 8 * (2 ^ 16 * a.toNat + 2 ^ 8 * b.toNat + c.toNat) ||| d.toNat
      = 2 ^ 24 * a.toNat + 2 ^ 16 * b.toNat + 2 ^ 8 * c.toNat + d.toNat := by
    rw [← Nat.two_pow_add_eq_or_of_lt hd]
    omega
  calc (word a b c d).toNat
      = a.toNat <<< 24 % 2 ^ 32 ||| b.toNat <<< 16 % 2 ^ 32 ||| c.toNat <<< 8 % 2 ^ 32 ||| d.toNat := rfl
    _ = 2 ^ 24 * a.toNat + 2 ^ 16 * b.toNat + 2 ^ 8 * c.toNat + d.toNat := by
        rw [hshift₁, hshift₂, hshift₃, hor₁, hor₂, hor₃]

theorem toNat_byte (v : UInt32) {n : UInt32} (h : n < 32) : (byte v n).toNat = v.toNat / 2 ^ n.toNat % 256 := by
  have h : n.toNat < 32 := h
  simp [byte, Nat.shiftRight_eq_div_pow, Nat.mod_eq_of_lt h]

theorem word_byte (v : UInt32) : word (byte v 24) (byte v 16) (byte v 8) (byte v 0) = v := by
  have hv := v.toNat_lt
  rw [← UInt32.toNat_inj, toNat_word, toNat_byte v (by decide), toNat_byte v (by decide), toNat_byte v (by decide),
    toNat_byte v (by decide)]
  simp only [UInt32.toNat_ofNat, Nat.reduceMod, Nat.reducePow]
  omega

theorem byte_word (a b c d : UInt8) :
    byte (word a b c d) 24 = a ∧ byte (word a b c d) 16 = b ∧ byte (word a b c d) 8 = c
      ∧ byte (word a b c d) 0 = d := by
  have ha := a.toNat_lt
  have hb := b.toNat_lt
  have hc := c.toNat_lt
  have hd := d.toNat_lt
  have hbyte : ∀ n < 32, (byte (word a b c d) n).toNat
      = (2 ^ 24 * a.toNat + 2 ^ 16 * b.toNat + 2 ^ 8 * c.toNat + d.toNat) / 2 ^ n.toNat % 256 := by
    intro n hn
    rw [toNat_byte _ hn, toNat_word]
  simp only [← UInt8.toNat_inj, hbyte 24 (by decide), hbyte 16 (by decide), hbyte 8 (by decide), hbyte 0 (by decide),
    UInt32.toNat_ofNat, Nat.reduceMod, Nat.reducePow]
  omega

/-! ## Blocks -/

namespace State

theorem ofBlock_toBlock (s : State) : ofBlock s.toBlock = s := by
  have h : ofBlock s.toBlock = ⟨word (byte s.w 24) (byte s.w 16) (byte s.w 8) (byte s.w 0),
      word (byte s.x 24) (byte s.x 16) (byte s.x 8) (byte s.x 0),
      word (byte s.y 24) (byte s.y 16) (byte s.y 8) (byte s.y 0),
      word (byte s.z 24) (byte s.z 16) (byte s.z 8) (byte s.z 0)⟩ := rfl
  rw [h, word_byte, word_byte, word_byte, word_byte]

theorem toBlock_ofBlock (b : Block) : (ofBlock b).toBlock = b := by
  have hw := byte_word (b.get 0) (b.get 1) (b.get 2) (b.get 3)
  have hx := byte_word (b.get 4) (b.get 5) (b.get 6) (b.get 7)
  have hy := byte_word (b.get 8) (b.get 9) (b.get 10) (b.get 11)
  have hz := byte_word (b.get 12) (b.get 13) (b.get 14) (b.get 15)
  have h : ∀ i : Fin 16, (ofBlock b).toBlock.get i = b.get i := by
    intro i
    fin_cases i
    exacts [hw.1, hw.2.1, hw.2.2.1, hw.2.2.2, hx.1, hx.2.1, hx.2.2.1, hx.2.2.2,
      hy.1, hy.2.1, hy.2.2.1, hy.2.2.2, hz.1, hz.2.1, hz.2.2.1, hz.2.2.2]
  exact Vector.ext fun i hi => h ⟨i, hi⟩

/-! ## Rounds -/

theorem reverse_reverse (s : State) : s.reverse.reverse = s := rfl

/-- A round is undone by the same round between two reversals. -/
theorem round_reverse_round (s : State) (k : UInt32) : (s.round k).reverse.round k = s.reverse := by
  obtain ⟨w, x, y, z⟩ := s
  have hsum : z ^^^ y ^^^ x ^^^ k = x ^^^ y ^^^ z ^^^ k := by
    rw [UInt32.xor_comm z y, UInt32.xor_comm (y ^^^ z) x, ← UInt32.xor_assoc]
  simp only [round, reverse, hsum]
  rw [UInt32.xor_assoc, UInt32.xor_self, UInt32.xor_zero]

/-- The rounds of a row of round keys are undone from the last one to the first. -/
theorem foldl_reverse_foldl (ks : List UInt32) (s : State) :
    ks.reverse.foldl round (ks.foldl round s).reverse = s.reverse := by
  induction ks generalizing s with
  | nil => rfl
  | cons k ks ih => rw [List.foldl_cons, List.reverse_cons, List.foldl_append, ih, List.foldl_cons, List.foldl_nil,
      round_reverse_round]

end State

theorem crypt_reverse_crypt (ks : List UInt32) (b : Block) : crypt ks.reverse (crypt ks b) = b := by
  rw [crypt, crypt, State.ofBlock_toBlock, State.foldl_reverse_foldl, State.reverse_reverse, State.toBlock_ofBlock]

theorem inverts_cipher (key : Block) : (cipher key).Inverts := fun b => crypt_reverse_crypt (roundKeys key) b

end Signet.Cipher.Sm4
