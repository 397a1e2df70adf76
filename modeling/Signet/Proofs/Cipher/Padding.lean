import Signet.Cipher.Block
import Mathlib.Tactic.Ring

/-!
# Blocks and padding

Whole blocks and their bytes are the same data. Removing the padding accepts exactly the padded messages.
-/

namespace Signet.Cipher.Block

@[simp] theorem length_toBytes (b : Block) : b.toBytes.length = 16 := by simp [toBytes]

theorem toArray_toBytes (b : Block) : b.toBytes.toArray = b.toArray := rfl

theorem ofBytes?_eq_some {b : Bytes} {v : Block} : ofBytes? b = some v ↔ v.toBytes = b := by
  unfold ofBytes?
  constructor
  · intro h
    split at h
    · cases h
      simp [toBytes]
    · cases h
  · rintro rfl
    rw [dif_pos v.length_toBytes]
    simp [toArray_toBytes]

/-! ## Rows of blocks -/

theorem join_cons (v : Block) (bs : List Block) : join (v :: bs) = v.toBytes ++ join bs := List.flatMap_cons

theorem length_join (bs : List Block) : (join bs).length = 16 * bs.length := by
  induction bs with
  | nil => rfl
  | cons v bs ih =>
    rw [join_cons, List.length_append, length_toBytes, ih, List.length_cons]
    ring

theorem split_append (v : Block) (b : Bytes) : split (v.toBytes ++ b) = v :: split b := by
  have htake : (v.toBytes ++ b).take 16 = v.toBytes := List.take_left' v.length_toBytes
  have hdrop : (v.toBytes ++ b).drop 16 = b := List.drop_left' v.length_toBytes
  rw [split, dif_pos (by rw [htake, length_toBytes]), hdrop]
  congr 1
  simp only [htake, toArray_toBytes]

theorem split_of_length_lt {b : Bytes} (h : b.length < 16) : split b = [] := by
  rw [split, dif_neg]
  rw [List.length_take]
  omega

theorem split_join (bs : List Block) : split (join bs) = bs := by
  induction bs with
  | nil => exact split_of_length_lt (by decide)
  | cons v bs ih => rw [join_cons, split_append, ih]

theorem join_split {b : Bytes} (h : b.length % 16 = 0) : join (split b) = b := by
  fun_induction split b with
  | case1 b hb ih =>
    rw [List.length_take] at hb
    have hrest : (b.drop 16).length % 16 = 0 := by
      rw [List.length_drop]
      omega
    rw [join_cons, ih hrest]
    simp [toBytes]
  | case2 b hb =>
    rw [List.length_take] at hb
    have hnil : b = [] := List.length_eq_zero_iff.mp (by omega)
    rw [hnil]
    rfl

/-! ## Padding -/

/-- How many bytes are added to a message of length `n`. -/
def padding (n : Nat) : Nat := 16 - n % 16

theorem padding_range (n : Nat) : 1 ≤ padding n ∧ padding n ≤ 16 := by
  rw [padding]
  omega

theorem pad_eq (m : Bytes) : pad m = m ++ List.replicate (padding m.length) (UInt8.ofNat (padding m.length)) := rfl

theorem length_pad (m : Bytes) : (pad m).length = 16 * (m.length / 16 + 1) := by
  rw [pad_eq, List.length_append, List.length_replicate, padding]
  omega

theorem length_pad_mod (m : Bytes) : (pad m).length % 16 = 0 := by
  rw [length_pad]
  omega

theorem toNat_padding (n : Nat) : (UInt8.ofNat (padding n)).toNat = padding n := by
  have := (padding_range n).2
  rw [UInt8.toNat_ofNat']
  omega

theorem unpad?_pad (m : Bytes) : unpad? (pad m) = some m := by
  obtain ⟨hpos, hle⟩ := padding_range m.length
  have hlast : (pad m).getLast?.getD 0 = UInt8.ofNat (padding m.length) := by
    rw [pad_eq, List.getLast?_append, List.getLast?_replicate, if_neg (by omega)]
    rfl
  have hlength : (pad m).length - padding m.length = m.length := by
    rw [pad_eq, List.length_append, List.length_replicate, Nat.add_sub_cancel]
  have hshort : padding m.length ≤ (pad m).length := by
    rw [length_pad]
    omega
  have hdrop : (pad m).drop m.length = List.replicate (padding m.length) (UInt8.ofNat (padding m.length)) :=
    List.drop_left
  have htake : (pad m).take m.length = m := List.take_left
  simp only [unpad?, hlast, toNat_padding, hlength, hdrop, htake]
  exact if_pos ⟨hpos, hle, hshort, trivial⟩

/-- Only what is padded loses its padding. -/
theorem pad_of_unpad? {b m : Bytes} (hb : b.length % 16 = 0) (h : unpad? b = some m) : pad m = b := by
  simp only [unpad?, Option.ite_none_right_eq_some, Option.some.injEq] at h
  obtain ⟨⟨hpos, hle, hshort, hdrop⟩, rfl⟩ := h
  have hpadding : padding (b.take (b.length - (b.getLast?.getD 0).toNat)).length = (b.getLast?.getD 0).toNat := by
    rw [List.length_take, padding]
    omega
  rw [pad_eq, hpadding, ← hdrop, List.take_append_drop]

end Signet.Cipher.Block
