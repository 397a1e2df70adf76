import Signet.DateTime

/-!
# Dates from numbers of seconds

The date and time of a number of seconds is one of the calendar, up to the end of the year 9999, and has this number
of seconds.
-/

namespace Signet

theorem monthLengths_sum (y : Nat) : (monthLengths y).foldr (· + ·) 0 = yearLength y := by
  cases h : isLeapYear y with
  | false | true => simp [monthLengths, yearLength, h]

theorem monthLength_le (y i : Nat) : (monthLengths y).getD i 0 ≤ 31 := by
  have hall : ∀ n ∈ monthLengths y, n ≤ 31 := by
    cases h : isLeapYear y with
    | false | true => simp [monthLengths, h]
  rw [List.getD_eq_getElem?_getD]
  cases hi : (monthLengths y)[i]? with
  | none => exact Nat.zero_le 31
  | some n => exact hall n (List.mem_of_getElem? hi)

namespace DateTime

theorem leapsThrough_succ (x : Nat) : leapsThrough (x + 1) = leapsThrough x + if isLeapYear (x + 1) then 1 else 0 := by
  have hleap : isLeapYear (x + 1) = true ↔ 4 ∣ x + 1 ∧ (¬ 100 ∣ x + 1 ∨ 400 ∣ x + 1) := by
    simp [isLeapYear, Nat.dvd_iff_mod_eq_zero]
  have hle : x / 100 ≤ x / 4 := Nat.div_le_div_left (by decide) (by decide)
  simp only [leapsThrough, Nat.succ_div, hleap]
  -- every multiple of 400 is one of 100, and every multiple of 100 is one of 4
  by_cases h4 : 4 ∣ x + 1
  · by_cases h100 : 100 ∣ x + 1
    · simp only [h4, h100, not_true_eq_false, false_or, true_and, if_true]
      omega
    · have h400 : ¬ 400 ∣ x + 1 := fun h => h100 (Nat.dvd_trans (by decide) h)
      simp only [h4, h100, h400, not_false_eq_true, true_or, and_self, if_true, if_false]
      omega
  · have h100 : ¬ 100 ∣ x + 1 := fun h => h4 (Nat.dvd_trans (by decide) h)
    have h400 : ¬ 400 ∣ x + 1 := fun h => h4 (Nat.dvd_trans (by decide) h)
    simp only [h4, h100, h400, false_and, if_false, Nat.add_zero]

theorem daysBeforeYear_succ {y : Nat} (hy : 1970 ≤ y) : daysBeforeYear (y + 1) = daysBeforeYear y + yearLength y := by
  obtain ⟨x, rfl⟩ := Nat.exists_eq_add_of_le' (Nat.le_trans (by decide : 1 ≤ 1970) hy)
  have hstart : leapsThrough 1969 ≤ leapsThrough x := by
    simp only [leapsThrough]
    omega
  rw [daysBeforeYear, daysBeforeYear, Nat.add_sub_cancel, Nat.add_sub_cancel, leapsThrough_succ, yearLength]
  split <;> omega

/-- The number of days stays the same while whole years are taken off it. -/
theorem splitYear_spec {y : Nat} (hy : 1970 ≤ y) (days : Nat) :
    1970 ≤ (splitYear y days).1 ∧ (splitYear y days).2 < yearLength (splitYear y days).1 ∧
      daysBeforeYear (splitYear y days).1 + (splitYear y days).2 = daysBeforeYear y + days := by
  fun_induction splitYear y days with
  | case1 y days hlt => exact ⟨hy, hlt, rfl⟩
  | case2 y days hge ih =>
    obtain ⟨hyear, hrest, hsum⟩ := ih (by omega)
    have := daysBeforeYear_succ hy
    exact ⟨hyear, hrest, by omega⟩

theorem lt_of_daysBeforeYear_lt {y : Nat} (h : daysBeforeYear y < 2932897) : y < 10000 := by
  simp only [daysBeforeYear, leapsThrough] at h
  omega

theorem splitMonth_spec {lengths : List Nat} {m days : Nat} (h : days < lengths.foldr (· + ·) 0) :
    m ≤ (splitMonth lengths m days).1 ∧ (splitMonth lengths m days).1 < m + lengths.length ∧
      (splitMonth lengths m days).2 < lengths.getD ((splitMonth lengths m days).1 - m) 0 := by
  fun_induction splitMonth lengths m days with
  | case1 => cases h
  | case2 n ns m days hlt =>
    refine ⟨Nat.le_refl m, by simp, ?_⟩
    simpa using hlt
  | case3 n ns m days hge ih =>
    rw [List.foldr_cons] at h
    obtain ⟨hlower, hupper, hrest⟩ := ih (by omega)
    refine ⟨by omega, by rw [List.length_cons]; omega, ?_⟩
    obtain ⟨i, hi⟩ : ∃ i, (splitMonth ns (m + 1) (days - n)).1 = m + 1 + i := ⟨_, (Nat.add_sub_of_le hlower).symm⟩
    rw [hi, Nat.add_sub_cancel_left] at hrest
    rw [hi, Nat.add_assoc, Nat.add_sub_cancel_left, Nat.add_comm 1 i, List.getD_cons_succ]
    exact hrest

/-- The number of days stays the same while whole months are taken off it. -/
theorem splitMonth_sum (lengths : List Nat) (m days : Nat) :
    m ≤ (splitMonth lengths m days).1 ∧
      (lengths.take ((splitMonth lengths m days).1 - m)).foldr (· + ·) 0 + (splitMonth lengths m days).2 = days := by
  fun_induction splitMonth lengths m days with
  | case1 => simp
  | case2 => simp
  | case3 n ns m days hge ih =>
    obtain ⟨hlower, hsum⟩ := ih
    obtain ⟨i, hi⟩ : ∃ i, (splitMonth ns (m + 1) (days - n)).1 = m + 1 + i := ⟨_, (Nat.add_sub_of_le hlower).symm⟩
    rw [hi, Nat.add_sub_cancel_left] at hsum
    rw [hi, Nat.add_assoc, Nat.add_sub_cancel_left, Nat.add_comm 1 i, List.take_succ_cons, List.foldr_cons]
    omega

theorem toUnix_ofUnix (seconds : Nat) : (ofUnix seconds).toUnix = seconds := by
  obtain ⟨-, -, hyears⟩ := splitYear_spec (Nat.le_refl 1970) (seconds / 86400)
  obtain ⟨-, hmonths⟩ :=
    splitMonth_sum (monthLengths (splitYear 1970 (seconds / 86400)).1) 1 (splitYear 1970 (seconds / 86400)).2
  have hstart : daysBeforeYear 1970 = 0 := rfl
  rw [hstart] at hyears
  simp only [toUnix, ofUnix]
  omega

theorem isValid_ofUnix {seconds : Nat} (h : seconds ≤ maxUnix) : (ofUnix seconds).IsValid := by
  rw [maxUnix] at h
  obtain ⟨hyear, hday, hdays⟩ := splitYear_spec (Nat.le_refl 1970) (seconds / 86400)
  have hstart : daysBeforeYear 1970 = 0 := rfl
  have hupper : (splitYear 1970 (seconds / 86400)).1 < 10000 := lt_of_daysBeforeYear_lt (by omega)
  rw [← monthLengths_sum] at hday
  obtain ⟨hmonth, hmonth', hlength⟩ := splitMonth_spec (m := 1) hday
  refine ⟨hyear, Nat.le_of_lt_succ hupper, hmonth, Nat.le_of_lt_succ hmonth', Nat.le_add_left .., hlength, ?_, ?_, ?_⟩
  all_goals
    simp only [ofUnix]
    omega

theorem ofUnix?_eq_some {seconds : Nat} {t : DateTime} :
    ofUnix? seconds = some t ↔ seconds ≤ maxUnix ∧ t = ofUnix seconds := by
  rw [ofUnix?, Option.ite_none_right_eq_some, Option.some.injEq, @eq_comm _ t]

end DateTime

end Signet
