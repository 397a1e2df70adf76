import Signet.Proofs.Certificate.Decoding
import Signet.Proofs.Der.Grammar
import Signet.Proofs.Text.Numeral

/-!
# The texts of serial numbers

A serial number below `2 ^ 128` is shown in decimal, any larger one in hexadecimal. Nothing tells the two notations apart,
so that a large number without a hexadecimal letter looks like a smaller one.
-/

namespace Signet

open Der

namespace SerialNumber

variable {s : SerialNumber} {n : Nat}

/-- The number that a serial number writes in two's complement. -/
def number (s : SerialNumber) : Int :=
  match s.content with
  | [] => 0
  | x :: b => if x < 0x80 then Bytes.toNat (x :: b) else Bytes.toNat (x :: b) - 256 ^ (b.length + 1)

theorem isNatural_of_number (h : s.number = n) : IsNatural n s.content := by
  obtain ⟨content, canonical, short⟩ := s
  cases content with
  | nil => cases canonical
  | cons x b =>
    simp only [number] at h
    split at h
    · next hx =>
      refine ⟨by simp, by exact_mod_cast h, ?_, ?_⟩
      · rintro x' b' ⟨⟩
        exact hx
      · rintro y b' ⟨⟩
        simpa [isIntegerContent] using canonical
    · have hlt : Bytes.toNat (x :: b) < 256 ^ (b.length + 1) := Bytes.toNat_lt (x :: b)
      have hneg : (Bytes.toNat (x :: b) : Int) < 256 ^ (b.length + 1) := by exact_mod_cast hlt
      omega

theorem eq_of_number {t : SerialNumber} (hs : s.number = n) (ht : t.number = n) : s = t := by
  obtain ⟨b, _, _⟩ := s
  obtain ⟨c, _, _⟩ := t
  have hb : b = natContent n := (isNatural_of_number hs).eq_natContent
  have hc : c = natContent n := (isNatural_of_number ht).eq_natContent
  subst hb
  subst hc
  rfl

/-! ## The two notations -/

theorem text_of_lt (hs : s.number = n) (h : n < 2 ^ 128) : s.text = n.repr := by
  have hvalue := (isNatural_of_number hs).value
  have hshort : (Bytes.stripZeros s.content).length ≤ 16 := Bytes.length_stripZeros_le_iff.mpr (by omega)
  rw [text, if_pos hshort, Bytes.toNat_stripZeros, hvalue]

theorem text_of_le (hs : s.number = n) (h : 2 ^ 128 ≤ n) :
    s.text = Hex.encode (Bytes.stripZeros s.content) ∧ s.text = Hex.paired n := by
  have hvalue := (isNatural_of_number hs).value
  have hlong : ¬(Bytes.stripZeros s.content).length ≤ 16 := by
    rw [Bytes.length_stripZeros_le_iff]
    omega
  have htext : s.text = Hex.encode (Bytes.stripZeros s.content) := by rw [text, if_neg hlong]
  refine ⟨htext, ?_⟩
  rw [← hvalue, ← Bytes.toNat_stripZeros, htext]
  cases hstrip : Bytes.stripZeros s.content with
  | nil => simp [hstrip] at hlong
  | cons x b => exact Hex.encode_cons (Bytes.ne_zero_of_stripZeros hstrip) b

theorem text_inj_of_le {t : SerialNumber} {m : Nat} (hs : s.number = n) (ht : t.number = m) (hn : 2 ^ 128 ≤ n)
    (hm : 2 ^ 128 ≤ m) (h : s.text = t.text) : n = m := by
  rw [(text_of_le hs hn).1, (text_of_le ht hm).1] at h
  have hbytes := Hex.digits_injective (String.ofList_injective h)
  rw [← (isNatural_of_number hs).value, ← (isNatural_of_number ht).value, ← Bytes.toNat_stripZeros, hbytes,
    Bytes.toNat_stripZeros]

/-- A numeral in decimal has more digits than the bytes of a large number have in hexadecimal. -/
theorem text_ne_repr (hs : s.number = n) (h : 2 ^ 128 ≤ n) : s.text ≠ n.repr := by
  intro htext
  have hvalue := (isNatural_of_number hs).value
  rw [(text_of_le hs h).1, Nat.repr_eq_ofList_toDigits] at htext
  have hdigits := congrArg List.length (String.ofList_injective htext)
  rw [Hex.length_digits] at hdigits
  generalize hk : (Bytes.stripZeros s.content).length = k at hdigits
  have hlong : 16 < k := by
    by_contra hshort
    have hlt := Bytes.length_stripZeros_le_iff.mp (hk.trans_le (Nat.le_of_not_lt hshort))
    omega
  have hlower : 256 ^ (k - 1) ≤ n := by
    by_contra hsmall
    have hle : (Bytes.stripZeros s.content).length ≤ k - 1 := Bytes.length_stripZeros_le_iff.mpr (by omega)
    omega
  have hupper : n < 10 ^ (2 * k) := (Nat.length_toDigits_le_iff (by decide) (by omega)).mp hdigits.symm.le
  obtain ⟨j, rfl⟩ : ∃ j, k = j + 17 := ⟨k - 17, by omega⟩
  have hpow : 10 ^ (2 * (j + 17)) ≤ 256 ^ (j + 17 - 1) := calc
    10 ^ (2 * (j + 17)) = 100 ^ j * 100 ^ 17 := by rw [Nat.pow_mul, Nat.pow_add]
    _ ≤ 256 ^ j * 256 ^ 16 := Nat.mul_le_mul (Nat.pow_le_pow_left (by decide) j) (by decide)
    _ = 256 ^ (j + 17 - 1) := (Nat.pow_add 256 j 16).symm
  omega

/-! ## Numbers that look alike -/

/-- The decimal digits of a number below `2 ^ 128` are the hexadecimal digits of one that is not, an even number of
them. -/
structure Shadows (m n : Nat) : Prop where
  small : m < 2 ^ 128
  large : 2 ^ 128 ≤ n
  digits : Nat.toDigits 10 m = Nat.toDigits 16 n
  even : 2 ∣ (Nat.toDigits 16 n).length

theorem repr_eq_paired_iff {m n : Nat} (hm : m < 2 ^ 128) (hn : 2 ^ 128 ≤ n) : m.repr = Hex.paired n ↔ Shadows m n := by
  rw [Nat.repr_eq_ofList_toDigits, Hex.paired]
  constructor
  · intro h
    have hdigits := String.ofList_injective h
    split at hdigits
    · next heven => exact ⟨hm, hn, hdigits, heven⟩
    · -- A numeral in decimal starts with a zero only if it is the one of zero.
      cases m with
      | zero =>
        rw [Nat.toDigits_zero, List.cons.injEq] at hdigits
        exact absurd hdigits.2.symm Nat.toDigits_ne_nil
      | succ m =>
        have hhead : (Nat.toDigits 10 (m + 1)).head? ≠ some '0' := head?_toDigits (by decide) m.succ_pos
        simp [hdigits] at hhead
  · intro h
    rw [if_pos h.even, h.digits]

theorem text_eq_iff {t : SerialNumber} {m : Nat} (hs : s.number = n) (ht : t.number = m) :
    t.text = s.text ↔ t = s ∨ Shadows m n ∨ Shadows n m := by
  have hsame : n = m → t = s := by
    rintro rfl
    exact eq_of_number ht hs
  constructor
  · intro h
    by_cases hn : n < 2 ^ 128 <;> by_cases hm : m < 2 ^ 128
    · rw [text_of_lt hs hn, text_of_lt ht hm] at h
      exact .inl (hsame (repr_injective h.symm))
    · have hm := Nat.le_of_not_lt hm
      rw [text_of_lt hs hn, (text_of_le ht hm).2] at h
      exact .inr (.inr ((repr_eq_paired_iff hn hm).mp h.symm))
    · have hn := Nat.le_of_not_lt hn
      rw [(text_of_le hs hn).2, text_of_lt ht hm] at h
      exact .inr (.inl ((repr_eq_paired_iff hm hn).mp h))
    · exact .inl (hsame (text_inj_of_le hs ht (Nat.le_of_not_lt hn) (Nat.le_of_not_lt hm) h.symm))
  · rintro (rfl | h | h)
    · rfl
    · rw [text_of_lt ht h.small, (text_of_le hs h.large).2]
      exact (repr_eq_paired_iff h.small h.large).mpr h
    · rw [text_of_lt hs h.small, (text_of_le ht h.large).2]
      exact ((repr_eq_paired_iff h.small h.large).mpr h).symm

end SerialNumber

/-! ## Certificates -/

namespace CertificateBody.Layout

/-- The body of `plain` with another serial number. -/
def numbered (n : Nat) : Layout := { plain with
  serial := .ofNat n
  serial_tag := rfl }

end CertificateBody.Layout

namespace Bundle

open SerialNumber CertificateBody.Layout

/-- Whether a certificate has a given serial number and shows it as a given text. -/
def Shows (n : Nat) (text : String) (c : Bundle) : Prop :=
  c.certificate.body.serial.number = n ∧ c.serialText = text

instance (n : Nat) (text : String) : DecidablePred (Shows n text) := fun c =>
  inferInstanceAs (Decidable (c.certificate.body.serial.number = n ∧ c.serialText = text))

def sharedText : String := "1000000000000000000000000000000000"

theorem exists_small : ∃ c, ofDer (numbered (10 ^ 33)).unsignedDer = .ok c ∧ c.Shows (10 ^ 33) sharedText :=
  exists_of_any (by decide +kernel)

theorem exists_large : ∃ c, ofDer (numbered (16 ^ 33)).unsignedDer = .ok c ∧ c.Shows (16 ^ 33) sharedText :=
  exists_of_any (by decide +kernel)

theorem shadows_pow : Shadows (10 ^ 33) (16 ^ 33) where
  small := by decide
  large := by decide
  digits := by decide +kernel
  even := by decide +kernel

/-- The serial number `n` of a certificate is shown in decimal exactly when it is below `2 ^ 128`. Two certificates show the
same exactly when they have the same serial number, or when the decimal digits of the smaller one are the hexadecimal
digits of the larger one. -/
theorem serialText_exact {b : Bundle} {n : Nat} (hb : b.certificate.body.serial.number = n) :
    b.serialText = (if n < 2 ^ 128 then n.repr else Hex.paired n) ∧
      (b.serialText = n.repr ↔ n < 2 ^ 128) ∧
      ∀ (c : Bundle) (m : Nat), c.certificate.body.serial.number = m →
        (c.serialText = b.serialText ↔
          c.certificate.body.serial = b.certificate.body.serial ∨ Shadows m n ∨ Shadows n m) := by
  refine ⟨?_, ⟨fun h => ?_, fun h => text_of_lt hb h⟩, fun c m hc => text_eq_iff hb hc⟩
  · split
    · next hlt => exact text_of_lt hb hlt
    · next hle => exact (text_of_le hb (Nat.le_of_not_lt hle)).2
  · by_contra hle
    exact text_ne_repr hb (Nat.le_of_not_lt hle) h

theorem serialText_exact_shadowed : ∃ b c, ofDer (numbered (16 ^ 33)).unsignedDer = .ok b ∧
    ofDer (numbered (10 ^ 33)).unsignedDer = .ok c ∧ b.serialText ≠ (16 ^ 33).repr ∧ c.serialText = b.serialText := by
  obtain ⟨b, hread, hb, -⟩ := exists_large
  obtain ⟨c, hread', hc, -⟩ := exists_small
  obtain ⟨-, hdecimal, hsame⟩ := serialText_exact hb
  exact ⟨b, c, hread, hread', fun h => absurd (hdecimal.mp h) (by decide), (hsame c _ hc).mpr (.inr (.inl shadows_pow))⟩

/-- A certificate with the serial number `16 ^ 33` shows the decimal numeral of `10 ^ 33`, as one with this serial number
does. -/
theorem serialText_shared : ∃ b c, ofDer (numbered (16 ^ 33)).unsignedDer = .ok b ∧
    ofDer (numbered (10 ^ 33)).unsignedDer = .ok c ∧ b.certificate.body.serial.number = ((16 ^ 33 : Nat) : Int) ∧
    b.certificate.body.serial ≠ c.certificate.body.serial ∧ b.serialText ≠ (16 ^ 33).repr ∧
    b.serialText = c.serialText := by
  obtain ⟨b, hread, hb, htext⟩ := exists_large
  obtain ⟨c, hread', hc, htext'⟩ := exists_small
  refine ⟨b, c, hread, hread', hb, fun heq => ?_, ?_, htext.trans htext'.symm⟩
  · rw [heq, hc] at hb
    exact absurd (Int.ofNat_inj.mp hb) (by decide)
  · rw [htext]
    decide +kernel

end Bundle

end Signet
