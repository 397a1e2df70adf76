import Signet.Der.Time
import Signet.Proofs.DateTime
import Signet.Proofs.Der.Element
import Mathlib.Data.List.Induction

/-!
# Times that were written

Decimal digits are read back modulo the power of ten that they have room for, and a valid time is read back from its
element, which is the only one it is read from. The two digits of a year stand for 1950 to 2049.
-/

namespace Signet.Der

@[simp] theorem length_decimal (width n : Nat) : (decimal width n).length = width := by
  induction width generalizing n with
  | zero => rfl
  | succ width ih => rw [decimal, List.length_append, ih, List.length_singleton]

@[simp] theorem length_laterDigits (t : DateTime) : (laterDigits t).length = 11 := by
  simp only [laterDigits, List.length_append, length_decimal, List.length_singleton]

theorem ofDecimal?_decimal (width n : Nat) : ofDecimal? (decimal width n) = some (n % 10 ^ width) := by
  induction width generalizing n with
  | zero => rw [Nat.pow_zero, Nat.mod_one]; rfl
  | succ width ih =>
    have hdigit : (UInt8.ofNat (48 + n % 10)).toNat = 48 + n % 10 := by
      rw [UInt8.toNat_ofNat']
      omega
    have hrange : 48 ≤ UInt8.ofNat (48 + n % 10) ∧ UInt8.ofNat (48 + n % 10) ≤ 57 := by
      simp only [UInt8.le_iff_toNat_le, hdigit, UInt8.reduceToNat]
      omega
    have hread := ih (n / 10)
    rw [ofDecimal?] at hread
    have hsplit : n % 10 ^ (width + 1) = n / 10 % 10 ^ width * 10 + n % 10 := by
      rw [Nat.pow_succ', Nat.mod_mul, Nat.mul_comm 10, Nat.add_comm]
    rw [decimal, ofDecimal?, List.foldlM_append, hread, Option.bind_eq_bind, Option.bind_some, List.foldlM_cons,
      if_pos hrange, hdigit, Nat.add_sub_cancel_left, hsplit]
    rfl

theorem ofDecimal?_decimal_two {n : Nat} (h : n < 100) : ofDecimal? (decimal 2 n) = some n :=
  (ofDecimal?_decimal 2 n).trans (congrArg some (Nat.mod_eq_of_lt h))

/-- The induction goes from the last digit to the first one. -/
theorem decimal_of_ofDecimal? {b : Bytes} {n : Nat} (h : ofDecimal? b = some n) :
    b = decimal b.length n ∧ n < 10 ^ b.length := by
  induction b using List.reverseRecOn generalizing n with
  | nil =>
    cases h
    exact ⟨rfl, Nat.one_pos⟩
  | append_singleton b x ih =>
    rw [ofDecimal?, List.foldlM_append, Option.bind_eq_bind, Option.bind_eq_some_iff] at h
    obtain ⟨m, hm, h⟩ := h
    obtain ⟨hb, hlt⟩ := ih hm
    simp only [List.foldlM_cons, List.foldlM_nil, Option.bind_eq_bind, Option.bind_eq_some_iff,
      Option.ite_none_right_eq_some, Option.some.injEq, UInt8.le_iff_toNat_le, UInt8.reduceToNat] at h
    obtain ⟨_, ⟨hrange, rfl⟩, h⟩ := h
    cases h
    have hrest : (m * 10 + (x.toNat - 48)) / 10 = m := by omega
    have hdigit : 48 + (m * 10 + (x.toNat - 48)) % 10 = x.toNat := by omega
    rw [List.length_append, List.length_singleton, decimal, hrest, hdigit, UInt8.ofNat_toNat, ← hb, Nat.pow_succ]
    exact ⟨rfl, by omega⟩

theorem two_digits_of_ofDecimal? {b : Bytes} {n : Nat} (h : ofDecimal? (b.take 2) = some n) (hlength : 2 ≤ b.length) :
    b = decimal 2 n ++ b.drop 2 ∧ n < 100 := by
  obtain ⟨hdigits, hlt⟩ := decimal_of_ofDecimal? h
  rw [List.length_take_of_le hlength] at hdigits hlt
  exact ⟨by rw [← hdigits, List.take_append_drop], hlt⟩

theorem ofLaterDigits?_laterDigits {t : DateTime} (h : t.IsValid) : ofLaterDigits? t.year (laterDigits t) = some t := by
  obtain ⟨-, -, -, hmonth, -, hday, hhour, hminute, hsecond⟩ := id h
  have hday' := hday.trans (monthLength_le ..)
  have h₁ : ofDecimal? ((laterDigits t).take 2) = some t.month := ofDecimal?_decimal_two (by omega)
  have h₂ : ofDecimal? (((laterDigits t).drop 2).take 2) = some t.day := ofDecimal?_decimal_two (by omega)
  have h₃ : ofDecimal? (((laterDigits t).drop 4).take 2) = some t.hour := ofDecimal?_decimal_two (by omega)
  have h₄ : ofDecimal? (((laterDigits t).drop 6).take 2) = some t.minute := ofDecimal?_decimal_two (by omega)
  have h₅ : ofDecimal? (((laterDigits t).drop 8).take 2) = some t.second := ofDecimal?_decimal_two (by omega)
  simp only [ofLaterDigits?, h₁, h₂, h₃, h₄, h₅, Option.bind_eq_bind, Option.bind_some]
  exact if_pos ⟨rfl, rfl, h⟩

theorem laterDigits_of_ofLaterDigits? {y : Nat} {b : Bytes} {t : DateTime} (h : ofLaterDigits? y b = some t) :
    b = laterDigits t ∧ t.year = y ∧ t.IsValid := by
  simp only [ofLaterDigits?, Option.bind_eq_bind, Option.bind_eq_some_iff, Option.ite_none_right_eq_some,
    Option.some.injEq] at h
  obtain ⟨month, hmonth, day, hday, hour, hhour, minute, hminute, second, hsecond, ⟨hlength, hlast, hvalid⟩, rfl⟩ := h
  have h₁ := (two_digits_of_ofDecimal? hmonth (by omega)).1
  have h₂ := (two_digits_of_ofDecimal? hday (by rw [List.length_drop]; omega)).1
  have h₃ := (two_digits_of_ofDecimal? hhour (by rw [List.length_drop]; omega)).1
  have h₄ := (two_digits_of_ofDecimal? hminute (by rw [List.length_drop]; omega)).1
  have h₅ := (two_digits_of_ofDecimal? hsecond (by rw [List.length_drop]; omega)).1
  rw [List.drop_drop] at h₂ h₃ h₄ h₅
  refine ⟨?_, rfl, hvalid⟩
  calc b = decimal 2 month ++ (decimal 2 day ++ (decimal 2 hour ++ (decimal 2 minute ++ (decimal 2 second ++ b.drop 10)))) := by
        rw [← h₅, ← h₄, ← h₃, ← h₂, ← h₁]
    _ = laterDigits ⟨y, month, day, hour, minute, second⟩ := by
        rw [hlast, laterDigits]
        simp only [List.append_assoc]

/-- A time that can be written: a valid one, and for two digits of the year one before 2050. -/
def Time.IsValid : Time → Prop
  | .utc t => t.IsValid ∧ t.year < 2050
  | .general t => t.IsValid

namespace Element

theorem fits_ofTime (t : Time) : (ofTime t).Fits := by
  cases t with
  | utc | general =>
    refine ⟨rfl, ?_⟩
    simp only [ofTime, List.length_append, length_decimal, length_laterDigits]
    decide

theorem time?_ofTime {t : Time} (h : t.IsValid) : (ofTime t).time? = some t := by
  cases t with
  | utc t =>
    obtain ⟨hvalid, hyear⟩ := h
    have hdigits : ofDecimal? ((ofTime (.utc t)).content.take 2) = some (t.year % 100) :=
      ofDecimal?_decimal_two (Nat.mod_lt _ (by decide))
    have hcentury : (if t.year % 100 < 50 then 2000 + t.year % 100 else 1900 + t.year % 100) = t.year := by
      have := hvalid.1
      split <;> omega
    have hrest : (ofTime (.utc t)).content.drop 2 = laterDigits t := rfl
    simp only [time?, hdigits, Option.bind_eq_bind, Option.bind_some, hcentury, hrest,
      ofLaterDigits?_laterDigits hvalid]
    rfl
  | general t =>
    have hdigits : ofDecimal? ((ofTime (.general t)).content.take 4) = some t.year := by
      have hyear := h.2.1
      exact (ofDecimal?_decimal 4 t.year).trans (congrArg some (Nat.mod_eq_of_lt (by omega)))
    have hrest : (ofTime (.general t)).content.drop 4 = laterDigits t := rfl
    simp only [time?, hdigits, Option.bind_eq_bind, Option.bind_some, hrest, ofLaterDigits?_laterDigits h]
    rfl

/-- A time is read from its own element only. -/
theorem eq_ofTime_of_time? {e : Element} {t : Time} (h : e.time? = some t) : e = ofTime t ∧ t.IsValid := by
  obtain ⟨tag, content⟩ := e
  unfold time? at h
  split at h
  · next htag =>
    simp only [Option.bind_eq_bind, Option.bind_eq_some_iff] at h
    obtain ⟨y, hy, t, ht, h⟩ := h
    cases h
    obtain ⟨hlater, hyear, hvalid⟩ := laterDigits_of_ofLaterDigits? ht
    have hlength : content.length = 13 := by
      have := congrArg List.length hlater
      rw [List.length_drop, length_laterDigits] at this
      omega
    obtain ⟨hcontent, hlt⟩ := two_digits_of_ofDecimal? hy (by omega)
    have hdigits : t.year % 100 = y ∧ t.year < 2050 := by
      split at hyear <;> omega
    refine ⟨?_, hvalid, hdigits.2⟩
    rw [ofTime, hdigits.1, ← hlater, ← hcontent]
    exact congrArg (Element.mk · content) htag
  · split at h
    · next htag =>
      simp only [Option.bind_eq_bind, Option.bind_eq_some_iff] at h
      obtain ⟨y, hy, t, ht, h⟩ := h
      cases h
      obtain ⟨hlater, hyear, hvalid⟩ := laterDigits_of_ofLaterDigits? ht
      have hlength : content.length = 15 := by
        have := congrArg List.length hlater
        rw [List.length_drop, length_laterDigits] at this
        omega
      have hdigits := (decimal_of_ofDecimal? hy).1
      rw [List.length_take_of_le (by omega)] at hdigits
      refine ⟨?_, hvalid⟩
      rw [ofTime, hyear, ← hdigits, ← hlater, List.take_append_drop]
      exact congrArg (Element.mk · content) htag
    · cases h

end Element

end Signet.Der
