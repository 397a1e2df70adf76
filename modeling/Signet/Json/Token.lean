import Signet.Json.Basic

/-!
# JSON tokens

The words of a JSON text: marks, literals, numbers and strings, with any white space between them. Every token
takes at least one character, so that reading ends.
-/

namespace Signet.Json

inductive Token where
  | openList
  | closeList
  | openRecord
  | closeRecord
  | comma
  | colon
  | null
  | bool (value : Bool)
  | nat (value : Nat)
  | number (characters : List Char)
  | string (text : Option String)
deriving DecidableEq, Repr

def isSpace (c : Char) : Bool := c == ' ' || c == '\n' || c == '\r' || c == '\t'

def isDigit (c : Char) : Bool := 48 ≤ c.toNat && c.toNat ≤ 57

def isNumberPart (c : Char) : Bool :=
  isDigit c || c == '+' || c == '-' || c == '.' || c == 'e' || c == 'E'

def digitsValue (cs : List Char) : Nat := cs.foldl (fun n c => n * 10 + (c.toNat - 48)) 0

/-- Whether `cs` is a whole number in digits without leading zeros. -/
def isWhole (cs : List Char) : Bool := cs != [] && cs.all isDigit && (cs.length == 1 || cs.head? != some '0')

/-- Whether `cs` is the rest of a number from the exponent on: a sign at most and digits. -/
def isExponent (cs : List Char) : Bool :=
  let digits := match cs with
    | '+' :: r => r
    | '-' :: r => r
    | _ => cs
  digits != [] && digits.all isDigit

/-- Whether `cs` is the rest of a number behind its whole part. -/
def isNumberTail (cs : List Char) : Bool :=
  let afterFraction := match cs with
    | '.' :: r => if (r.takeWhile isDigit).isEmpty then none else some (r.dropWhile isDigit)
    | _ => some cs
  match afterFraction with
  | none => false
  | some [] => true
  | some (c :: r) => (c == 'e' || c == 'E') && isExponent r

def numberToken? (cs : List Char) : Option Token :=
  if isWhole cs then some (.nat (digitsValue cs))
  else
    let unsigned := match cs with
      | '-' :: r => r
      | _ => cs
    if isWhole (unsigned.takeWhile isDigit) && isNumberTail (unsigned.dropWhile isDigit) then some (.number cs)
    else none

def hexValue? (c : Char) : Option Nat :=
  if isDigit c then some (c.toNat - 48)
  else if 97 ≤ c.toNat ∧ c.toNat ≤ 102 then some (c.toNat - 87)
  else if 65 ≤ c.toNat ∧ c.toNat ≤ 70 then some (c.toNat - 55)
  else none

def hexUnit? (a b c d : Char) : Option Nat := do
  return (((← hexValue? a) * 16 + (← hexValue? b)) * 16 + (← hexValue? c)) * 16 + (← hexValue? d)

/-- The code unit of an escape of one character. -/
def escapeUnit? (c : Char) : Option Nat :=
  if c = '"' ∨ c = '\\' ∨ c = '/' then some c.toNat
  else if c = 'b' then some 8
  else if c = 'f' then some 12
  else if c = 'n' then some 10
  else if c = 'r' then some 13
  else if c = 't' then some 9
  else none

/-- The code units of a string up to its closing mark, and the rest. A character that is not escaped counts as
one unit. -/
def stringUnits? : List Char → Option (List Nat × List Char)
  | [] => none
  | '"' :: r => some ([], r)
  | '\\' :: 'u' :: a :: b :: c :: d :: r =>
    match hexUnit? a b c d, stringUnits? r with
    | some u, some (us, rest) => some (u :: us, rest)
    | _, _ => none
  | '\\' :: e :: r =>
    match escapeUnit? e, stringUnits? r with
    | some u, some (us, rest) => some (u :: us, rest)
    | _, _ => none
  | c :: r =>
    match stringUnits? r with
    | some (us, rest) => if c.toNat < 32 ∨ c = '\\' then none else some (c.toNat :: us, rest)
    | none => none

/-- The text that code units stand for. Two surrogates in a row stand for one character; one alone stands for
none. -/
def unitsText? : List Nat → Option (List Char)
  | [] => some []
  | [u] => if 0xd800 ≤ u ∧ u < 0xe000 then none else some [Char.ofNat u]
  | u :: v :: us =>
    if 0xd800 ≤ u ∧ u < 0xe000 then
      if u < 0xdc00 ∧ 0xdc00 ≤ v ∧ v < 0xe000 then
        (unitsText? us).map (Char.ofNat (0x10000 + (u - 0xd800) * 0x400 + (v - 0xdc00)) :: ·)
      else none
    else (unitsText? (v :: us)).map (Char.ofNat u :: ·)

def mark? (c : Char) : Option Token :=
  if c = '[' then some .openList
  else if c = ']' then some .closeList
  else if c = '\x7b' then some .openRecord
  else if c = '\x7d' then some .closeRecord
  else if c = ',' then some .comma
  else if c = ':' then some .colon
  else none

def literal? : List Char → Option (Token × List Char)
  | 'n' :: 'u' :: 'l' :: 'l' :: r => some (.null, r)
  | 't' :: 'r' :: 'u' :: 'e' :: r => some (.bool true, r)
  | 'f' :: 'a' :: 'l' :: 's' :: 'e' :: r => some (.bool false, r)
  | _ => none

/-- Takes a token off the front of a text that does not start with white space. -/
def token? : List Char → Option (Token × List Char)
  | [] => none
  | c :: r =>
    match mark? c with
    | some t => some (t, r)
    | none =>
      if c = '"' then
        (stringUnits? r).map fun (us, rest) => (.string ((unitsText? us).map String.ofList), rest)
      else if c = '-' ∨ isDigit c then
        (numberToken? (c :: r.takeWhile isNumberPart)).map fun t => (t, r.dropWhile isNumberPart)
      else literal? (c :: r)

theorem length_le_of_stringUnits? {cs rest : List Char} {us : List Nat}
    (h : stringUnits? cs = some (us, rest)) : rest.length ≤ cs.length := by
  fun_induction stringUnits? cs generalizing us rest with
  | case1 => simp at h
  | case2 r => simp_all
  | case3 a b c d r u us' rest' hr hu ih =>
    simp only [Option.some.injEq, Prod.mk.injEq] at h
    have := ih hr
    rw [← h.2]
    simp only [List.length_cons]
    omega
  | case4 => simp at h
  | case5 e r _ u us' rest' hr hu ih =>
    simp only [Option.some.injEq, Prod.mk.injEq] at h
    have := ih hr
    rw [← h.2]
    simp only [List.length_cons]
    omega
  | case6 => simp at h
  | case7 => simp at h
  | case8 c r _ _ _ us' rest' hr hc ih =>
    simp only [Option.some.injEq, Prod.mk.injEq] at h
    have := ih hr
    rw [← h.2]
    simp only [List.length_cons]
    omega
  | case9 => simp at h

theorem length_lt_of_literal? {cs rest : List Char} {t : Token} (h : literal? cs = some (t, rest)) :
    rest.length < cs.length := by
  unfold literal? at h
  split at h <;> simp_all <;> omega

theorem length_lt_of_token? {cs rest : List Char} {t : Token} (h : token? cs = some (t, rest)) :
    rest.length < cs.length := by
  unfold token? at h
  split at h
  · simp at h
  · next c r =>
    split at h
    · simp_all
    · split at h
      · simp only [Option.map_eq_some_iff, Prod.mk.injEq] at h
        obtain ⟨a, ha, -, rfl⟩ := h
        exact Nat.lt_succ_of_le (length_le_of_stringUnits? ha)
      · split at h
        · simp only [Option.map_eq_some_iff, Prod.mk.injEq] at h
          obtain ⟨a, ha, -, rfl⟩ := h
          exact Nat.lt_succ_of_le (List.dropWhile_sublist _).length_le
        · exact length_lt_of_literal? h

def tokens? (cs : List Char) : Option (List Token) :=
  if cs.dropWhile isSpace = [] then some []
  else
    match _h : token? (cs.dropWhile isSpace) with
    | none => none
    | some (t, rest) => (tokens? rest).map (t :: ·)
termination_by cs.length
decreasing_by
  have h1 := length_lt_of_token? ‹token? (cs.dropWhile isSpace) = some (t, rest)›
  have h2 : (cs.dropWhile isSpace).length ≤ cs.length := (List.dropWhile_sublist _).length_le
  omega

end Signet.Json
