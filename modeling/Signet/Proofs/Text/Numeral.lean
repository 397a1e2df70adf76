import Signet.Proofs.Bytes
import Signet.Text.Hex
import Mathlib.Data.List.Induction

/-!
# Numerals

The numeral of a positive number does not start with a zero. The hexadecimal digits of a byte string without leading zeros
are the numeral of the number that it writes, behind a zero where their count would be odd.
-/

namespace Signet

theorem head?_toDigits {base n : Nat} (hbase : 1 < base) (hn : 0 < n) : (Nat.toDigits base n).head? ≠ some '0' := by
  induction n using Nat.strong_induction_on with
  | _ n ih =>
    by_cases hlt : n < base
    · intro h
      rw [Nat.toDigits_of_lt_base hlt, List.head?_cons, Option.some.injEq, Nat.digitChar_eq_zero] at h
      omega
    · have hle : base ≤ n := Nat.le_of_not_lt hlt
      have hne : Nat.toDigits base (n / base) ≠ [] := Nat.toDigits_ne_nil
      have hfront := ih (n / base) (Nat.div_lt_self hn hbase) (Nat.div_pos hle (by omega))
      obtain ⟨c, cs, hcs⟩ := List.exists_cons_of_ne_nil hne
      rw [hcs] at hfront
      rw [Nat.toDigits_of_base_le hbase hle, hcs]
      exact hfront

theorem repr_injective {m n : Nat} (h : m.repr = n.repr) : m = n := by
  rw [Nat.repr_eq_ofList_toDigits, Nat.repr_eq_ofList_toDigits] at h
  rw [← Nat.ofDigitChars_ten_toDigits (n := m), String.ofList_injective h, Nat.ofDigitChars_ten_toDigits]

namespace Hex

theorem digit_eq : ∀ n < 16, digit n = Nat.digitChar n := by decide

theorem digit_inj : ∀ m < 16, ∀ n < 16, digit m = digit n → m = n := by decide

theorem digits_append (b c : Bytes) : digits (b ++ c) = digits b ++ digits c := List.flatMap_append

theorem length_digits (b : Bytes) : (digits b).length = 2 * b.length := by
  induction b with
  | nil => rfl
  | cons x b ih =>
    rw [digits, List.flatMap_cons, List.length_append, ← digits, ih, List.length_cons]
    simp only [List.length_cons, List.length_nil]
    omega

theorem digits_injective {b c : Bytes} (h : digits b = digits c) : b = c := by
  induction b generalizing c with
  | nil =>
    cases c with
    | nil => rfl
    | cons y c => cases h
  | cons x b ih =>
    cases c with
    | nil => cases h
    | cons y c =>
      have hx := x.toNat_lt
      have hy := y.toNat_lt
      simp only [digits, List.flatMap_cons, List.cons_append, List.nil_append, List.cons.injEq] at h
      obtain ⟨hhigh, hlow, hrest⟩ := h
      have hhigh := digit_inj _ (by omega) _ (by omega) hhigh
      have hlow := digit_inj _ (by omega) _ (by omega) hlow
      have hxy : x = y := UInt8.toNat_inj.mp (by omega)
      rw [hxy, ih hrest]

/-- A further byte adds its two digits. -/
theorem toDigits_append_digits {n : Nat} (hn : 0 < n) (x : UInt8) :
    Nat.toDigits 16 n ++ digits [x] = Nat.toDigits 16 (n * 256 + x.toNat) := by
  have hx := x.toNat_lt
  have hhigh : x.toNat / 16 < 16 := by omega
  have hlow : x.toNat % 16 < 16 := by omega
  have hdigits : digits [x] = Nat.toDigits 16 (x.toNat / 16) ++ Nat.toDigits 16 (x.toNat % 16) := by
    rw [Nat.toDigits_of_lt_base hhigh, Nat.toDigits_of_lt_base hlow, ← digit_eq _ hhigh, ← digit_eq _ hlow]
    rfl
  have hvalue : 16 * (16 * n + x.toNat / 16) + x.toNat % 16 = n * 256 + x.toNat := by omega
  rw [hdigits, ← List.append_assoc, Nat.toDigits_append_toDigits (by decide) hn hhigh,
    Nat.toDigits_append_toDigits (by decide) (by omega) hlow, hvalue]

theorem digits_cons {x : UInt8} (hx : x ≠ 0) (b : Bytes) :
    digits (x :: b) = (if x.toNat < 16 then ['0'] else []) ++ Nat.toDigits 16 (Bytes.toNat (x :: b)) := by
  have hpos : 0 < x.toNat := Nat.pos_of_ne_zero fun h => hx (UInt8.toNat_inj.mp h)
  have hlt := x.toNat_lt
  induction b using List.reverseRecOn with
  | nil =>
    have hvalue : Bytes.toNat [x] = x.toNat := by simp [Bytes.toNat]
    have hhigh := digit_eq (x.toNat / 16) (by omega)
    have hlow := digit_eq (x.toNat % 16) (by omega)
    have hdigits : digits [x] = [Nat.digitChar (x.toNat / 16), Nat.digitChar (x.toNat % 16)] := by
      rw [← hhigh, ← hlow]
      rfl
    rw [hdigits, hvalue]
    split
    · next hsmall => rw [Nat.toDigits_of_lt_base hsmall, Nat.div_eq_of_lt hsmall, Nat.mod_eq_of_lt hsmall]; rfl
    · next hlarge =>
      rw [Nat.toDigits_of_base_le (by decide) (by omega), Nat.toDigits_of_lt_base (by omega)]
      rfl
  | append_singleton b y ih =>
    have hvalue : Bytes.toNat (x :: b ++ [y]) = Bytes.toNat (x :: b) * 256 + y.toNat := by
      rw [Bytes.toNat_append]
      simp [Bytes.toNat]
    have hone : 1 * 256 ^ b.length ≤ Bytes.toNat (x :: b) := Bytes.le_toNat_cons_iff.mpr hpos
    have hprefix : 0 < Bytes.toNat (x :: b) := (Nat.mul_pos Nat.one_pos (Nat.pow_pos (by decide))).trans_le hone
    rw [← List.cons_append, digits_append, ih, List.append_assoc, toDigits_append_digits hprefix, hvalue]

/-- A number in hexadecimal, with an even number of digits. -/
def paired (n : Nat) : String :=
  let ds := Nat.toDigits 16 n
  String.ofList (if 2 ∣ ds.length then ds else '0' :: ds)

theorem encode_cons {x : UInt8} (hx : x ≠ 0) (b : Bytes) : encode (x :: b) = paired (Bytes.toNat (x :: b)) := by
  have hdigits := digits_cons hx b
  have hlength := length_digits (x :: b)
  rw [hdigits, List.length_append] at hlength
  rw [encode, paired, hdigits]
  by_cases hsmall : x.toNat < 16
  · rw [if_pos hsmall, List.length_singleton] at hlength
    rw [if_pos hsmall, if_neg (by omega), List.singleton_append]
  · rw [if_neg hsmall, List.length_nil] at hlength
    rw [if_neg hsmall, if_pos (by omega), List.nil_append]

end Hex

end Signet
