import Signet.Text.Hidden

/-!
# Quoted texts

A text between quotation marks, in which marks, the backslash and characters that do not print are written
as escapes.
-/

namespace Signet.Text

/-- `c` inside quotes, where each character of `marks` takes a backslash. -/
def escape (marks : List Char) (c : Char) : List Char :=
  if c = '\x00' then ['\\', '0']
  else if c = '\t' then ['\\', 't']
  else if c = '\r' then ['\\', 'r']
  else if c = '\n' then ['\\', 'n']
  else if c = '\\' ∨ c ∈ marks then ['\\', c]
  else if isHidden c then ['\\', 'u', '\x7b'] ++ Nat.toDigits 16 c.toNat ++ ['\x7d']
  else [c]

def quote (s : String) : String :=
  String.ofList ('"' :: s.toList.flatMap (escape ['"']) ++ ['"'])

/-- A path in double quotes, in which the apostrophe takes a backslash too. -/
def quotePath (s : String) : String :=
  String.ofList ('"' :: s.toList.flatMap (escape ['"', '\'']) ++ ['"'])

def quoteChar (c : Char) : String :=
  String.ofList ('\'' :: escape ['\''] c ++ ['\''])

end Signet.Text
