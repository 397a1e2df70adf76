import Signet.Bytes
import Mathlib.Tactic.Ring

/-!
# Numbers and texts as byte strings

The writing and the reading of a number are inverse to each other on the numbers that fit, those of a text on all
texts.
-/

namespace Signet.Bytes

theorem toNatLE_ofNatLE (len n : Nat) : toNatLE (ofNatLE len n) = n % 256 ^ len := by
  induction len generalizing n with
  | zero => simp [ofNatLE, toNatLE, Nat.mod_one]
  | succ len ih =>
    have : (UInt8.ofNat n).toNat = n % 256 := by simp
    rw [ofNatLE, toNatLE, ih, this, Nat.pow_succ, Nat.mul_comm (256 ^ len) 256, Nat.mod_mul]

theorem toNat_eq_toNatLE_reverse (b : Bytes) : toNat b = toNatLE b.reverse := by
  have h : ∀ c : Bytes, c.foldr (fun x n => n * 256 + x.toNat) 0 = toNatLE c := by
    intro c
    induction c with
    | nil => rfl
    | cons x c ih => simp only [List.foldr_cons, toNatLE, ih]; omega
  rw [toNat, ← h, List.foldr_reverse]

theorem toNat_ofNat (len n : Nat) : toNat (ofNat len n) = n % 256 ^ len := by
  rw [toNat_eq_toNatLE_reverse, ofNat, List.reverse_reverse, toNatLE_ofNatLE]

theorem ofNatLE_toNatLE (b : Bytes) : ofNatLE b.length (toNatLE b) = b := by
  induction b with
  | nil => rfl
  | cons x b ih =>
    have hx := x.toNat_lt
    have h1 : UInt8.ofNat (x.toNat + 256 * toNatLE b) = x := by
      apply UInt8.toNat_inj.mp; simp
    have h2 : (x.toNat + 256 * toNatLE b) / 256 = toNatLE b := by omega
    rw [List.length_cons, toNatLE, ofNatLE, h1, h2, ih]

/-- The bytes of a number are its digits in base 256. -/
theorem toNat_getElem {b : Bytes} {i : Nat} (h : i < b.length) : b[i].toNat = toNatLE b / 256 ^ i % 256 := by
  induction b generalizing i with
  | nil => cases h
  | cons x b ih =>
    have hx := x.toNat_lt
    cases i with
    | zero =>
      simp only [List.getElem_cons_zero, toNatLE, Nat.pow_zero, Nat.div_one]
      omega
    | succ i =>
      have hdiv : (x.toNat + 256 * toNatLE b) / 256 = toNatLE b := by omega
      rw [List.getElem_cons_succ, ih (Nat.lt_of_succ_lt_succ h), toNatLE, Nat.pow_succ', ← Nat.div_div_eq_div_mul, hdiv]

theorem ofNat_toNat (b : Bytes) : ofNat b.length (toNat b) = b := by
  rw [toNat_eq_toNatLE_reverse, ofNat, ← List.length_reverse, ofNatLE_toNatLE, List.reverse_reverse]

theorem toNat_append (a b : Bytes) : toNat (a ++ b) = toNat a * 256 ^ b.length + toNat b := by
  induction b generalizing a with
  | nil => simp [toNat]
  | cons x b ih =>
    have hone : toNat (a ++ [x]) = toNat a * 256 + x.toNat := by simp [toNat]
    have hcons : toNat (x :: b) = x.toNat * 256 ^ b.length + toNat b := by simpa [toNat] using ih [x]
    rw [List.append_cons, ih, hone, hcons, List.length_cons, Nat.pow_succ', ← Nat.mul_assoc]
    ring

theorem toNat_cons (x : UInt8) (b : Bytes) : toNat (x :: b) = x.toNat * 256 ^ b.length + toNat b := by
  simpa [toNat] using toNat_append [x] b

theorem toNat_lt (b : Bytes) : toNat b < 256 ^ b.length := by
  have h := toNat_ofNat b.length (toNat b)
  rw [ofNat_toNat] at h
  rw [h]
  exact Nat.mod_lt _ (Nat.pow_pos (by decide))

theorem toNatLE_lt (b : Bytes) : toNatLE b < 256 ^ b.length := by
  have h := toNat_lt b.reverse
  rwa [toNat_eq_toNatLE_reverse, List.reverse_reverse, List.length_reverse] at h

/-- The first byte is the quotient by the power of 256 that it stands for. -/
theorem toNat_cons_lt_iff {x : UInt8} {b : Bytes} {m : Nat} : toNat (x :: b) < m * 256 ^ b.length ↔ x.toNat < m := by
  have hpos : 0 < 256 ^ b.length := Nat.pow_pos (by decide)
  have hdiv : toNat (x :: b) / 256 ^ b.length = x.toNat := by
    rw [toNat_cons, Nat.mul_comm, Nat.mul_add_div hpos, Nat.div_eq_of_lt (toNat_lt b), Nat.add_zero]
  rw [← Nat.div_lt_iff_lt_mul hpos, hdiv]

theorem le_toNat_cons_iff {x : UInt8} {b : Bytes} {m : Nat} : m * 256 ^ b.length ≤ toNat (x :: b) ↔ m ≤ x.toNat := by
  rw [← Nat.not_lt, toNat_cons_lt_iff, Nat.not_lt]

/-! ## Leading zeros -/

theorem stripZeros_zero_cons (b : Bytes) : stripZeros (0 :: b) = stripZeros b := rfl

theorem stripZeros_cons_of_ne {x : UInt8} (hx : x ≠ 0) (b : Bytes) : stripZeros (x :: b) = x :: b :=
  List.dropWhile_cons_of_neg (by simpa using hx)

theorem ne_zero_of_stripZeros {b c : Bytes} {x : UInt8} (h : stripZeros b = x :: c) : x ≠ 0 := by
  rintro rfl
  have hhead := List.head?_dropWhile_not (· == 0) b
  rw [← stripZeros, h] at hhead
  simp at hhead

theorem toNat_zero_cons (b : Bytes) : toNat (0 :: b) = toNat b := by
  rw [toNat_cons, UInt8.toNat_zero, Nat.zero_mul, Nat.zero_add]

theorem toNat_padLeft (len : Nat) (b : Bytes) : toNat (padLeft len b) = toNat b := by
  rw [padLeft]
  induction len - b.length with
  | zero => rfl
  | succ n ih => rw [List.replicate_succ, List.cons_append, toNat_zero_cons, ih]

theorem toNat_stripZeros (b : Bytes) : toNat (stripZeros b) = toNat b := by
  induction b with
  | nil => rfl
  | cons x b ih =>
    by_cases hx : x = 0
    · rw [hx, stripZeros_zero_cons, ih, toNat_zero_cons]
    · rw [stripZeros_cons_of_ne hx]

/-- Without its leading zeros a number is in no more bytes than it needs. -/
theorem length_stripZeros_le_iff {b : Bytes} {len : Nat} : (stripZeros b).length ≤ len ↔ toNat b < 256 ^ len := by
  constructor
  · intro h
    have hlt := toNat_lt (stripZeros b)
    rw [toNat_stripZeros] at hlt
    exact hlt.trans_le (Nat.pow_le_pow_right (by decide) h)
  · intro h
    induction b with
    | nil => exact Nat.zero_le len
    | cons x b ih =>
      by_cases hx : x = 0
      · rw [hx, toNat_zero_cons] at h
        rw [hx, stripZeros_zero_cons]
        exact ih h
      · have hone : 1 ≤ x.toNat := Nat.pos_of_ne_zero fun h0 => hx (UInt8.toNat_inj.mp h0)
        have hle : 1 * 256 ^ b.length ≤ toNat (x :: b) := le_toNat_cons_iff.mpr hone
        rw [Nat.one_mul] at hle
        rw [stripZeros_cons_of_ne hx]
        exact (Nat.pow_lt_pow_iff_right (by decide)).mp (hle.trans_lt h)

theorem padLeft_stripZeros {b : Bytes} {len : Nat} (h : toNat b < 256 ^ len) :
    padLeft len (stripZeros b) = ofNat len (toNat b) := by
  have hle := length_stripZeros_le_iff.mpr h
  have hlength : (padLeft len (stripZeros b)).length = len := by
    rw [padLeft, List.length_append, List.length_replicate]
    omega
  have hwritten := ofNat_toNat (padLeft len (stripZeros b))
  rw [hlength, toNat_padLeft, toNat_stripZeros] at hwritten
  exact hwritten.symm

/-! ## Texts -/

theorem toString?_ofString (s : String) : toString? (ofString s) = some s := by
  have hbytes : (⟨(ofString s).toArray⟩ : ByteArray) = s.toByteArray := by simp [ofString, String.toUTF8]
  rw [toString?, hbytes, String.fromUTF8?, dif_pos s.isValidUTF8]
  rfl

end Signet.Bytes
