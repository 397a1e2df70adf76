import Signet.Json.Token
import Signet.Proofs.Text.Numeral
import Mathlib.Data.List.Basic

/-!
# Written tokens

Each token is read back from its characters, whatever comes after it; behind a number this must not be a further part of a
number.
-/

namespace Signet.Json

theorem tokens?_eq (cs : List Char) :
    tokens? cs = if cs.dropWhile isSpace = [] then some []
      else (token? (cs.dropWhile isSpace)).bind fun p => (tokens? p.2).map (p.1 :: ·) := by
  rw [tokens?]
  split
  · rfl
  · split
    · next h => rw [h, Option.bind_none]
    · next h => rw [h, Option.bind_some]

theorem tokens?_nil : tokens? [] = some [] := by
  rw [tokens?_eq]
  rfl

theorem tokens?_space {space : List Char} (h : ∀ c ∈ space, isSpace c = true) (rest : List Char) :
    tokens? (space ++ rest) = tokens? rest := by
  rw [tokens?_eq, tokens?_eq rest, List.dropWhile_append_of_pos h]

theorem tokens?_of_token? {c : Char} {cs rest : List Char} {t : Token} {ts : List Token} (hc : isSpace c = false)
    (htoken : token? (c :: cs) = some (t, rest)) (hrest : tokens? rest = some ts) :
    tokens? (c :: cs) = some (t :: ts) := by
  have hdrop : (c :: cs).dropWhile isSpace = c :: cs := List.dropWhile_cons_of_neg (by simp [hc])
  rw [tokens?_eq, hdrop, if_neg (List.cons_ne_nil c cs), htoken, Option.bind_some, hrest, Option.map_some]

theorem tokens?_mark {c : Char} {rest : List Char} {t : Token} {ts : List Token} (hc : isSpace c = false)
    (hmark : mark? c = some t) (hrest : tokens? rest = some ts) : tokens? (c :: rest) = some (t :: ts) := by
  refine tokens?_of_token? hc ?_ hrest
  rw [token?, hmark]

/-! ## Strings -/

theorem hexUnit?_control : ∀ n < 32, hexUnit? '0' '0' (Nat.digitChar (n / 16)) (Nat.digitChar (n % 16)) = some n := by
  decide

theorem stringUnits?_escape (c : Char) {r rest : List Char} {us : List Nat} (h : stringUnits? r = some (us, rest)) :
    stringUnits? (escape c ++ r) = some (c.toNat :: us, rest) := by
  by_cases hshort : c ∈ ['"', '\\', '\x08', '\x0c', '\n', '\r', '\t']
  · simp only [List.mem_cons, List.not_mem_nil, or_false] at hshort
    rcases hshort with rfl | rfl | rfl | rfl | rfl | rfl | rfl <;> simp [escape, stringUnits?, h] <;> rfl
  · simp only [List.mem_cons, List.not_mem_nil, or_false, not_or] at hshort
    obtain ⟨hquote, hbackslash, h1, h2, h3, h4, h5⟩ := hshort
    by_cases hcontrol : c.toNat < 32
    · have hescape : escape c = controlEscape c := by simp [escape, *]
      rw [hescape, controlEscape]
      simp [stringUnits?, hexUnit?_control _ hcontrol, h]
    · have hescape : escape c = [c] := by simp [escape, *]
      rw [hescape, List.singleton_append, stringUnits?.eq_5 c r hquote (fun _ _ _ _ _ hc _ => hbackslash hc)
        (fun _ _ hc _ => hbackslash hc), h]
      simp [hcontrol, hbackslash]

theorem stringUnits?_flatMap_escape (cs rest : List Char) :
    stringUnits? (cs.flatMap escape ++ '"' :: rest) = some (cs.map Char.toNat, rest) := by
  induction cs with
  | nil => rfl
  | cons c cs ih =>
    rw [List.flatMap_cons, List.append_assoc, List.map_cons]
    exact stringUnits?_escape c ih

theorem toNat_not_surrogate (c : Char) : ¬(0xd800 ≤ c.toNat ∧ c.toNat < 0xe000) := by
  rcases c.valid with h | h <;> simp only [Char.toNat, UInt32.toNat] at * <;> omega

theorem unitsText?_map_toNat (cs : List Char) : unitsText? (cs.map Char.toNat) = some cs := by
  induction cs with
  | nil => rfl
  | cons c cs ih =>
    cases cs with
    | nil => simp only [List.map_cons, List.map_nil, unitsText?, if_neg (toNat_not_surrogate c), Char.ofNat_toNat]
    | cons d cs =>
      rw [List.map_cons, List.map_cons] at *
      rw [unitsText?, if_neg (toNat_not_surrogate c), ih, Option.map_some, Char.ofNat_toNat]

theorem token?_quoted (s : String) (rest : List Char) : token? (quoted s ++ rest) = some (.string (some s), rest) := by
  have hunits := stringUnits?_flatMap_escape s.toList rest
  simp only [quoted, List.cons_append, List.append_assoc, token?]
  simp [mark?, hunits, unitsText?_map_toNat]

theorem tokens?_quoted (s : String) {rest : List Char} {ts : List Token} (hrest : tokens? rest = some ts) :
    tokens? (quoted s ++ rest) = some (.string (some s) :: ts) :=
  tokens?_of_token? (by decide) (token?_quoted s rest) hrest

/-! ## Numbers -/

/-- Whether a text does not go on with a part of a number. -/
def EndsNumber (cs : List Char) : Prop := ∀ c ∈ cs.head?, isNumberPart c = false

theorem isDigit_of_mem_toDigits {n : Nat} {c : Char} (h : c ∈ Nat.toDigits 10 n) : isDigit c = true := by
  have hdigit := Char.isDigit_iff_toNat.mp (Nat.isDigit_of_mem_toDigits (by decide) (by decide) h)
  simpa [isDigit] using hdigit

theorem isNumberPart_of_isDigit {c : Char} (h : isDigit c = true) : isNumberPart c = true := by
  simp [isNumberPart, h]

theorem isWhole_toDigits (n : Nat) : isWhole (Nat.toDigits 10 n) = true := by
  have hne : Nat.toDigits 10 n ≠ [] := Nat.toDigits_ne_nil
  have hall : (Nat.toDigits 10 n).all isDigit = true := List.all_eq_true.mpr fun _ => isDigit_of_mem_toDigits
  rcases Nat.eq_zero_or_pos n with rfl | hpos
  · decide
  · have hhead : (Nat.toDigits 10 n).head? ≠ some '0' := head?_toDigits (by decide) hpos
    simp [isWhole, hne, hall, hhead]

theorem digitsValue_toDigits (n : Nat) : digitsValue (Nat.toDigits 10 n) = n := by
  calc digitsValue (Nat.toDigits 10 n)
    _ = Nat.ofDigitChars 10 (Nat.toDigits 10 n) 0 := by simp [digitsValue, Nat.ofDigitChars_eq_foldl, Nat.mul_comm]
    _ = n := Nat.ofDigitChars_ten_toDigits

theorem takeWhile_isNumberPart {cs rest : List Char} (h : ∀ c ∈ cs, isNumberPart c = true) (hrest : EndsNumber rest) :
    (cs ++ rest).takeWhile isNumberPart = cs ∧ (cs ++ rest).dropWhile isNumberPart = rest := by
  rw [List.takeWhile_append_of_pos h, List.dropWhile_append_of_pos h]
  cases rest with
  | nil => simp
  | cons c rest =>
    have hc : isNumberPart c = false := hrest c rfl
    simp [hc]

theorem isSpace_of_isDigit {c : Char} (h : isDigit c = true) : isSpace c = false := by
  by_contra hspace
  simp only [isSpace, Bool.not_eq_false, Bool.or_eq_true, beq_iff_eq] at hspace
  rcases hspace with ((rfl | rfl) | rfl) | rfl <;> cases h

theorem mark?_of_isDigit {c : Char} (h : isDigit c = true) : mark? c = none := by
  unfold mark?
  split_ifs <;> first | rfl | (subst c; cases h)

theorem token?_toDigits (n : Nat) {rest : List Char} (hrest : EndsNumber rest) :
    token? (Nat.toDigits 10 n ++ rest) = some (.nat n, rest) := by
  have hdigits : ∀ c ∈ Nat.toDigits 10 n, isDigit c = true := fun _ => isDigit_of_mem_toDigits
  have hnumber : numberToken? (Nat.toDigits 10 n) = some (.nat n) := by
    unfold numberToken?
    rw [if_pos (isWhole_toDigits n), digitsValue_toDigits]
  obtain ⟨c, cs, hcs⟩ := List.exists_cons_of_ne_nil (Nat.toDigits_ne_nil (b := 10) (n := n))
  rw [hcs] at hdigits hnumber ⊢
  obtain ⟨hc, htail⟩ := List.forall_mem_cons.mp hdigits
  obtain ⟨htake, hdrop⟩ := takeWhile_isNumberPart (fun d hd => isNumberPart_of_isDigit (htail d hd)) hrest
  have hquote : c ≠ '"' := by rintro rfl; cases hc
  simp only [List.cons_append, token?, mark?_of_isDigit hc, if_neg hquote, hc, or_true, if_true, htake, hdrop, hnumber,
    Option.map_some]

theorem tokens?_toDigits (n : Nat) {rest : List Char} {ts : List Token} (hends : EndsNumber rest)
    (hrest : tokens? rest = some ts) : tokens? (Nat.toDigits 10 n ++ rest) = some (.nat n :: ts) := by
  have htoken := token?_toDigits n hends
  have hdigits : ∀ c ∈ Nat.toDigits 10 n, isDigit c = true := fun _ => isDigit_of_mem_toDigits
  obtain ⟨c, cs, hcs⟩ := List.exists_cons_of_ne_nil (Nat.toDigits_ne_nil (b := 10) (n := n))
  rw [hcs] at hdigits htoken ⊢
  exact tokens?_of_token? (isSpace_of_isDigit (hdigits c List.mem_cons_self)) htoken hrest

end Signet.Json
