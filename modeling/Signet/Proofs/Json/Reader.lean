import Signet.Json.Reader

/-!
# Values and their tokens

The tokens of a value in the order in which it is written. Reading takes them off the front of any row of tokens: twice
their number is enough fuel, as a step is taken for each token and for each item of a list or a record.
-/

namespace Signet.Json

mutual

def tokens : Json → List Token
  | .null => [.null]
  | .bool v => [.bool v]
  | .nat n => [.nat n]
  | .number cs => [.number cs]
  | .string s => [.string s]
  | .list [] => [.openList, .closeList]
  | .list (j :: js) => .openList :: (tokens j ++ itemTokens js)
  | .record [] => [.openRecord, .closeRecord]
  | .record (f :: fs) => .openRecord :: (fieldTokens f ++ moreTokens fs)

/-- The tokens behind the first item of a list. -/
def itemTokens : List Json → List Token
  | [] => [.closeList]
  | j :: js => .comma :: (tokens j ++ itemTokens js)

def fieldTokens : Option String × Json → List Token
  | (name, j) => .string name :: .colon :: tokens j

/-- The tokens behind the first field of a record. -/
def moreTokens : List (Option String × Json) → List Token
  | [] => [.closeRecord]
  | f :: fs => .comma :: (fieldTokens f ++ moreTokens fs)

end

theorem length_tokens_pos (j : Json) : 0 < j.tokens.length := by
  cases j with
  | list js => cases js <;> simp [tokens]
  | record fs => cases fs <;> simp [tokens]
  | _ => simp [tokens]

theorem head?_tokens_append (j : Json) (ts : List Token) : (j.tokens ++ ts).head? ≠ some .closeList := by
  cases j with
  | list js => cases js <;> simp [tokens]
  | record fs => cases fs <;> simp [tokens]
  | _ => simp [tokens]

mutual

theorem takeValue?_tokens (j : Json) {fuel : Nat} (hfuel : 2 * j.tokens.length ≤ fuel) (ts : List Token) :
    takeValue? fuel (j.tokens ++ ts) = some (j, ts) := by
  cases fuel with
  | zero =>
    have hpos := length_tokens_pos j
    omega
  | succ fuel =>
    match j with
    | .null => rfl
    | .bool _ => rfl
    | .nat _ => rfl
    | .number _ => rfl
    | .string _ => rfl
    | .list [] => rfl
    | .list (j :: js) =>
      simp only [tokens, List.length_cons] at hfuel
      have hne : (j.tokens ++ itemTokens js ++ ts).head? ≠ some .closeList := by
        rw [List.append_assoc]
        exact head?_tokens_append j _
      have hitems := takeItems?_tokens j js (show 2 * (j.tokens ++ itemTokens js).length ≤ fuel by omega) ts
      simp only [tokens, List.cons_append, takeValue?]
      rw [if_neg hne, hitems, Option.map_some]
    | .record [] => rfl
    | .record (f :: fs) =>
      simp only [tokens, List.length_cons] at hfuel
      have hne : (fieldTokens f ++ moreTokens fs ++ ts).head? ≠ some .closeRecord := by
        obtain ⟨name, j⟩ := f
        simp [fieldTokens]
      have hfields := takeFields?_tokens f fs (show 2 * (fieldTokens f ++ moreTokens fs).length ≤ fuel by omega) ts
      simp only [tokens, List.cons_append, takeValue?]
      rw [if_neg hne, hfields, Option.map_some]
termination_by fuel

theorem takeItems?_tokens (j : Json) (js : List Json) {fuel : Nat}
    (hfuel : 2 * (j.tokens ++ itemTokens js).length ≤ fuel) (ts : List Token) :
    takeItems? fuel (j.tokens ++ itemTokens js ++ ts) = some (j :: js, ts) := by
  rw [List.length_append] at hfuel
  rw [List.append_assoc]
  cases fuel with
  | zero =>
    have hpos := length_tokens_pos j
    omega
  | succ fuel =>
    match js with
    | [] =>
      simp only [itemTokens, List.length_singleton] at hfuel
      have hvalue := takeValue?_tokens j (show 2 * j.tokens.length ≤ fuel by omega) (.closeList :: ts)
      simp only [itemTokens, takeItems?, List.singleton_append, hvalue]
    | k :: js =>
      simp only [itemTokens, List.length_cons] at hfuel
      have hvalue := takeValue?_tokens j (show 2 * j.tokens.length ≤ fuel by omega)
        (.comma :: (k.tokens ++ itemTokens js ++ ts))
      have hitems := takeItems?_tokens k js (show 2 * (k.tokens ++ itemTokens js).length ≤ fuel by omega) ts
      simp only [itemTokens, takeItems?, List.cons_append, hvalue, hitems, Option.map_some]
termination_by fuel

theorem takeFields?_tokens (f : Option String × Json) (fs : List (Option String × Json)) {fuel : Nat}
    (hfuel : 2 * (fieldTokens f ++ moreTokens fs).length ≤ fuel) (ts : List Token) :
    takeFields? fuel (fieldTokens f ++ moreTokens fs ++ ts) = some (f :: fs, ts) := by
  match f with
  | (name, j) =>
    simp only [fieldTokens, List.length_append, List.length_cons] at hfuel
    simp only [fieldTokens, List.append_assoc]
    cases fuel with
    | zero => omega
    | succ fuel =>
      match fs with
      | [] =>
        have hvalue := takeValue?_tokens j (show 2 * j.tokens.length ≤ fuel by omega) (.closeRecord :: ts)
        simp only [moreTokens, takeFields?, List.cons_append, List.nil_append, hvalue]
      | g :: fs =>
        simp only [moreTokens, List.length_cons] at hfuel
        have hvalue := takeValue?_tokens j (show 2 * j.tokens.length ≤ fuel by omega)
          (.comma :: (fieldTokens g ++ moreTokens fs ++ ts))
        have hfields := takeFields?_tokens g fs (show 2 * (fieldTokens g ++ moreTokens fs).length ≤ fuel by omega) ts
        simp only [moreTokens, takeFields?, List.cons_append, hvalue, hfields, Option.map_some]
termination_by fuel

end

theorem ofTokens?_tokens (j : Json) : ofTokens? j.tokens = some j := by
  have hvalue := takeValue?_tokens j (Nat.le_succ (2 * j.tokens.length)) []
  rw [List.append_nil] at hvalue
  simp only [ofTokens?, hvalue]

end Signet.Json
