import Signet.Json.Token

/-!
# Reading JSON texts

A text is read as a row of tokens, and the tokens as one value. A comma stands between two items and nowhere
else.
-/

namespace Signet.Json

mutual

def takeValue? : (fuel : Nat) → List Token → Option (Json × List Token)
  | 0, _ => none
  | _, [] => none
  | fuel + 1, t :: ts =>
    match t with
    | .null => some (.null, ts)
    | .bool v => some (.bool v, ts)
    | .nat n => some (.nat n, ts)
    | .number cs => some (.number cs, ts)
    | .string s => some (.string s, ts)
    | .openList =>
      if ts.head? = some .closeList then some (.list [], ts.tail)
      else (takeItems? fuel ts).map fun (js, rest) => (.list js, rest)
    | .openRecord =>
      if ts.head? = some .closeRecord then some (.record [], ts.tail)
      else (takeFields? fuel ts).map fun (fs, rest) => (.record fs, rest)
    | _ => none

/-- Takes the items of a list, at least one, and its end off the front of a row of tokens. -/
def takeItems? : (fuel : Nat) → List Token → Option (List Json × List Token)
  | 0, _ => none
  | fuel + 1, ts =>
    match takeValue? fuel ts with
    | some (j, .comma :: rest) => (takeItems? fuel rest).map fun (js, rest) => (j :: js, rest)
    | some (j, .closeList :: rest) => some ([j], rest)
    | _ => none

/-- Takes the fields of a record, at least one, and its end off the front of a row of tokens. -/
def takeFields? : (fuel : Nat) → List Token → Option (List (Option String × Json) × List Token)
  | 0, _ => none
  | fuel + 1, ts =>
    match ts with
    | .string name :: .colon :: ts =>
      match takeValue? fuel ts with
      | some (j, .comma :: rest) => (takeFields? fuel rest).map fun (fs, rest) => ((name, j) :: fs, rest)
      | some (j, .closeRecord :: rest) => some ([(name, j)], rest)
      | _ => none
    | _ => none

end

def ofTokens? (ts : List Token) : Option Json :=
  match takeValue? (2 * ts.length + 1) ts with
  | some (j, []) => some j
  | _ => none

def ofString? (s : String) : Option Json := (tokens? s.toList).bind ofTokens?

end Signet.Json
