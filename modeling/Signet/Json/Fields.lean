import Signet.Json.Reader

/-!
# The parts of JSON values

A record type is read from a record, whose fields stand in any order and may be mixed with unknown ones, or from
a list of the field values in order, where fields at the end may be missing.
-/

namespace Signet.Json

def text? : Json → Option String
  | .string s => s
  | _ => none

/-- The natural number below `limit` of a number in plain digits. -/
def natBelow? (limit : Nat) : Json → Option Nat
  | .nat n => if n < limit then some n else none
  | _ => none

def items? : Json → Option (List Json)
  | .list js => some js
  | _ => none

/-- What `read?` finds in a value other than null. -/
def optional? {α : Type} (read? : Json → Option α) : Json → Option (Option α)
  | .null => some none
  | j => (read? j).map some

/-- The name of a choice: a string, or a record with one field of that name and no value. -/
def choice? : Json → Option String
  | .string s => s
  | .record [(name, .null)] => name
  | _ => none

/-- The value of the field `name`, of which there is at most one. -/
def single? (name : String) (fields : List (Option String × Json)) : Option (Option Json) :=
  match fields.filter fun f => f.1 == some name with
  | [] => some none
  | [f] => some (some f.2)
  | _ => none

/-- The values of the named fields of a record type, where missing ones are none. -/
def parts? (names : List String) : Json → Option (List (Option Json))
  | .list js =>
    if js.length ≤ names.length then some (js.map some ++ List.replicate (names.length - js.length) none)
    else none
  | .record fields =>
    if fields.all fun f => f.1.isSome then names.mapM fun name => single? name fields else none
  | _ => none

/-- What `read?` finds in a field, or `default` in a missing one. -/
def withDefault {α : Type} (default : α) (read? : Json → Option α) : Option Json → Option α
  | none => some default
  | some j => read? j

end Signet.Json
