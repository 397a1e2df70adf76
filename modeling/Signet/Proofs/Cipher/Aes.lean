import Signet.Cipher.Aes
import Signet.Proofs.Bytes
import Signet.Proofs.Cipher.Block
import Mathlib.Tactic.FinCases

/-!
# AES is a permutation

Every step of a round has an inverse. Mixing columns is linear, so that it is enough to follow a column with a single
byte other than 0 through both mixings.
-/

namespace Signet.Cipher

namespace Aes

/-- A function on bytes that keeps sums. -/
def Additive (f : UInt8 → UInt8) : Prop := ∀ x y, f (x ^^^ y) = f x ^^^ f y

theorem additive_id : Additive fun x => x := fun _ _ => rfl

theorem additive_double : Additive double := by
  have hlt : ∀ x : UInt8, x < 0x80 ↔ x.toBitVec.msb = false := by
    intro x
    rw [BitVec.msb_eq_false_iff_two_mul_lt, UInt8.lt_iff_toNat_lt]
    simp
    omega
  intro x y
  simp only [double, UInt8.shiftLeft_xor, hlt, UInt8.toBitVec_xor, BitVec.msb_xor]
  cases x.toBitVec.msb <;> cases y.toBitVec.msb <;> simp [UInt8.xor_assoc, xor_left_comm, UInt8.xor_comm]

namespace Additive

variable {f g h i : UInt8 → UInt8}

theorem double (hf : Additive f) : Additive fun x => double (f x) := by
  intro x y
  simp only [hf x y, additive_double (f x)]

theorem add (hf : Additive f) (hg : Additive g) : Additive fun x => f x ^^^ g x := by
  intro x y
  simp only [hf x y, hg x y, xor_xor_xor_comm (f x)]

/-- A row of a linear map keeps sums of columns. -/
theorem row (hf : Additive f) (hg : Additive g) (hh : Additive h) (hi : Additive i) (a b c d a' b' c' d' : UInt8) :
    f (a ^^^ a') ^^^ g (b ^^^ b') ^^^ h (c ^^^ c') ^^^ i (d ^^^ d')
      = (f a ^^^ g b ^^^ h c ^^^ i d) ^^^ (f a' ^^^ g b' ^^^ h c' ^^^ i d') := by
  rw [hf, hg, hh, hi, xor_xor_xor_comm (f a), xor_xor_xor_comm (f a ^^^ g b), xor_xor_xor_comm (f a ^^^ g b ^^^ h c)]

end Additive

/-! ## The steps of a round -/

/-- What a table holds at an index is a digit of the number that the table writes. -/
theorem toNat_get (table : Vector UInt8 256) (i : Fin 256) :
    (table.get i).toNat = Bytes.toNatLE table.toList / 256 ^ i.val % 256 :=
  Bytes.toNat_getElem (by simp)

theorem invSub_sub (x : UInt8) : invSub (sub x) = x := by
  have h : ∀ i < 256, Bytes.toNatLE invSbox.toList / 256 ^ (Bytes.toNatLE sbox.toList / 256 ^ i % 256) % 256 = i := by
    decide +kernel
  have hsub : (sub x).toNat = Bytes.toNatLE sbox.toList / 256 ^ x.toNat % 256 := toNat_get sbox _
  have hinv : (invSub (sub x)).toNat = Bytes.toNatLE invSbox.toList / 256 ^ (sub x).toNat % 256 := toNat_get invSbox _
  rw [← UInt8.toNat_inj, hinv, hsub]
  exact h x.toNat x.toNat_lt

namespace Column

theorem xor_xor (k l : Column) : (k.xor l).xor l = k := by
  simp only [xor, xor_xor_cancel_right]

theorem mix_xor (k l : Column) : (k.xor l).mix = k.mix.xor l.mix := by
  have h₁ := additive_id
  have h₂ := additive_double
  have h₃ := h₂.add h₁
  simp only [mix, xor, mk.injEq]
  exact ⟨h₂.row h₃ h₁ h₁ .., h₁.row h₂ h₃ h₁ .., h₁.row h₁ h₂ h₃ .., h₃.row h₁ h₁ h₂ ..⟩

theorem invMix_xor (k l : Column) : (k.xor l).invMix = k.invMix.xor l.invMix := by
  have h₁ := additive_id
  have h₂ := additive_double
  have h₄ := h₂.double
  have h₈ := h₄.double
  have h₉ := h₈.add h₁
  have h₁₁ := (h₈.add h₂).add h₁
  have h₁₃ := (h₈.add h₄).add h₁
  have h₁₄ := (h₈.add h₄).add h₂
  simp only [invMix, xor, mk.injEq]
  exact ⟨h₁₄.row h₁₁ h₁₃ h₉ .., h₉.row h₁₄ h₁₁ h₁₃ .., h₁₃.row h₉ h₁₄ h₁₁ .., h₁₁.row h₁₃ h₉ h₁₄ ..⟩

theorem eq_xor (k : Column) :
    k = (xor ⟨k.a, 0, 0, 0⟩ ⟨0, k.b, 0, 0⟩).xor (xor ⟨0, 0, k.c, 0⟩ ⟨0, 0, 0, k.d⟩) := by
  simp [xor]

/-- The products of the coefficients cancel without any reduction, so that `double` need not be unfolded. -/
theorem invMix_mix_single (x : UInt8) :
    (mix ⟨x, 0, 0, 0⟩).invMix = ⟨x, 0, 0, 0⟩ ∧ (mix ⟨0, x, 0, 0⟩).invMix = ⟨0, x, 0, 0⟩ ∧
      (mix ⟨0, 0, x, 0⟩).invMix = ⟨0, 0, x, 0⟩ ∧ (mix ⟨0, 0, 0, x⟩).invMix = ⟨0, 0, 0, x⟩ := by
  have hzero : double 0 = 0 := rfl
  simp only [mix, invMix, additive_double _ _, hzero, UInt8.xor_zero, UInt8.zero_xor, UInt8.xor_assoc, UInt8.xor_comm,
    xor_left_comm, UInt8.xor_self, xor_xor_cancel_left, and_self]

theorem invMix_mix (k : Column) : k.mix.invMix = k := by
  have ha := (invMix_mix_single k.a).1
  have hb := (invMix_mix_single k.b).2.1
  have hc := (invMix_mix_single k.c).2.2.1
  have hd := (invMix_mix_single k.d).2.2.2
  rw [k.eq_xor, mix_xor, mix_xor, mix_xor, invMix_xor, invMix_xor, invMix_xor, ha, hb, hc, hd]

end Column

namespace State

theorem xor_xor (s t : State) : (s.xor t).xor t = s := by
  simp only [xor, Column.xor_xor]

theorem map_map {f g : Column → Column} (h : ∀ k, f (g k) = k) (s : State) : (s.map g).map f = s := by
  simp only [map, h]

theorem invShiftRows_shiftRows (s : State) : s.shiftRows.invShiftRows = s := rfl

theorem invSubBytes_subBytes (s : State) : s.subBytes.invSubBytes = s :=
  map_map (fun k => by simp only [Column.map, invSub_sub]) s

theorem ofBlock_toBlock (s : State) : ofBlock s.toBlock = s := rfl

theorem toBlock_ofBlock (b : Block) : (ofBlock b).toBlock = b := by
  have h : ∀ i : Fin 16, (ofBlock b).toBlock.get i = b.get i := by
    intro i
    fin_cases i <;> rfl
  exact Vector.ext fun i hi => h ⟨i, hi⟩

end State

/-! ## Rounds -/

theorem invRounds_rounds (ks : List State) (s : State) : invRounds ks (rounds ks s) = s := by
  fun_induction rounds ks s with
  | case1 s => rfl
  | case2 k s => rw [invRounds, State.xor_xor, State.invShiftRows_shiftRows, State.invSubBytes_subBytes]
  | case3 k ks s hne ih =>
    rw [invRounds, ih, State.xor_xor, State.map_map Column.invMix_mix, State.invShiftRows_shiftRows,
      State.invSubBytes_subBytes]
    exact hne

theorem inverts_cipher (key : Block) : (cipher key).Inverts := by
  intro b
  simp only [cipher, State.ofBlock_toBlock, invRounds_rounds, State.xor_xor, State.toBlock_ofBlock]

end Signet.Cipher.Aes
