/-!
# JSON values

A value tree and its written form in a layout. An empty list or record is written without a line end in any
layout.
-/

namespace Signet

/-- A JSON value. The text of a string is none when the escapes in it stand for no text. A number is kept by
its characters unless it is a natural number in plain digits. -/
inductive Json where
  | null
  | bool (value : Bool)
  | nat (value : Nat)
  | number (characters : List Char)
  | string (text : Option String)
  | list (items : List Json)
  | record (fields : List (Option String × Json))

namespace Json

instance : Inhabited Json := ⟨null⟩

def controlEscape (c : Char) : List Char :=
  ['\\', 'u', '0', '0', Nat.digitChar (c.toNat / 16), Nat.digitChar (c.toNat % 16)]

def escape (c : Char) : List Char :=
  if c = '"' then ['\\', '"']
  else if c = '\\' then ['\\', '\\']
  else if c = '\x08' then ['\\', 'b']
  else if c = '\x0c' then ['\\', 'f']
  else if c = '\n' then ['\\', 'n']
  else if c = '\r' then ['\\', 'r']
  else if c = '\t' then ['\\', 't']
  else if c.toNat < 32 then controlEscape c
  else [c]

def quoted (s : String) : List Char := '"' :: s.toList.flatMap escape ++ ['"']

/-- What stands between the parts of a value: `newLine d` before a part that stands `d` levels deep, and `colon`
between a field name and its value. -/
structure Layout where
  newLine : Nat → List Char
  colon : List Char

/-- The layout with a part a line, indented by two blanks a level. -/
def Layout.indented : Layout := ⟨fun depth => '\n' :: List.replicate (2 * depth) ' ', [':', ' ']⟩

def Layout.compact : Layout := ⟨fun _ => [], [':']⟩

variable (layout : Layout)

mutual

/-- The written form of a value that stands `depth` levels deep. A string without a text is written as an empty
one. -/
def write (depth : Nat) : Json → List Char
  | .null => ['n', 'u', 'l', 'l']
  | .bool true => ['t', 'r', 'u', 'e']
  | .bool false => ['f', 'a', 'l', 's', 'e']
  | .nat n => Nat.toDigits 10 n
  | .number cs => cs
  | .string s => quoted (s.getD "")
  | .list [] => ['[', ']']
  | .list (j :: js) => '[' :: layout.newLine (depth + 1) ++ write (depth + 1) j ++ writeItems depth js
  | .record [] => ['\x7b', '\x7d']
  | .record (f :: fs) =>
    '\x7b' :: layout.newLine (depth + 1) ++ writeField (depth + 1) f ++ writeFields depth fs

/-- The items of a list after the first one, and its end. -/
def writeItems (depth : Nat) : List Json → List Char
  | [] => layout.newLine depth ++ [']']
  | j :: js => ',' :: layout.newLine (depth + 1) ++ write (depth + 1) j ++ writeItems depth js

def writeField (depth : Nat) : Option String × Json → List Char
  | (name, j) => quoted (name.getD "") ++ layout.colon ++ write depth j

def writeFields (depth : Nat) : List (Option String × Json) → List Char
  | [] => layout.newLine depth ++ ['\x7d']
  | f :: fs => ',' :: layout.newLine (depth + 1) ++ writeField (depth + 1) f ++ writeFields depth fs

end

def toText (j : Json) : String := String.ofList (j.write layout 0)

end Json

end Signet
