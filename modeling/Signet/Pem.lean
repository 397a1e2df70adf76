import Signet.Text.Base64

/-!
# PEM blocks

A block is a BEGIN line with a label, the base64 form of a byte string in lines of 64 characters, and an END
line with the same label. A line ends in LF, CR LF or CR. Text may stand before the BEGIN line if it ends in
LF and holds no NUL byte; nothing but one line end may follow the END line.
-/

namespace Signet.Pem

structure Block where
  label : Bytes
  content : Bytes
deriving DecidableEq, Repr

def dashes : Bytes := List.replicate 5 45

def beginMark : Bytes := dashes ++ [66, 69, 71, 73, 78, 32]

def endMark : Bytes := dashes ++ [69, 78, 68, 32]

def lineWidth : Nat := 64

def dropPrefix? : (p b : Bytes) → Option Bytes
  | [], b => some b
  | x :: p, y :: b => if x = y then dropPrefix? p b else none
  | _ :: _, [] => none

def dropSuffix? (s b : Bytes) : Option Bytes := (dropPrefix? s.reverse b.reverse).map List.reverse

def dropLineEnd? : Bytes → Option Bytes
  | 13 :: 10 :: b => some b
  | 13 :: b => some b
  | 10 :: b => some b
  | _ => none

def dropLastLineEnd? (b : Bytes) : Option Bytes :=
  match b.reverse with
  | 10 :: 13 :: r => some r.reverse
  | 10 :: r => some r.reverse
  | 13 :: r => some r.reverse
  | _ => none

/-- The rest of a text from the first BEGIN mark that follows an LF. No NUL byte may stand before it. -/
def dropPreambleLines? : Bytes → Option Bytes
  | [] => none
  | x :: b =>
    if x = 0 then none
    else if x = 10 ∧ beginMark.isPrefixOf b then some b
    else dropPreambleLines? b

def dropPreamble? (b : Bytes) : Option Bytes :=
  if beginMark.isPrefixOf b then some b else dropPreambleLines? b

/-- Reads a label up to the next hyphen: printable ASCII, with single blanks or tabs that follow another
character. `blank` tells whether one may stand here. -/
def takeLabel? : (blank : Bool) → Bytes → Option (Bytes × Bytes)
  | _, [] => some ([], [])
  | blank, x :: b =>
    if x = 45 then some ([], x :: b)
    else if 33 ≤ x ∧ x ≤ 126 then (takeLabel? true b).map fun (l, r) => (x :: l, r)
    else if (x = 32 ∨ x = 9) ∧ blank then (takeLabel? false b).map fun (l, r) => (x :: l, r)
    else none

theorem length_lt_of_dropLineEnd? {b r : Bytes} (h : dropLineEnd? b = some r) : r.length < b.length := by
  unfold dropLineEnd? at h
  split at h
  case h_4 => simp at h
  all_goals
    obtain rfl := Option.some.inj h
    simp only [List.length_cons]
    omega

/-- The base64 characters of a text whose lines are all full except that the last one may be short. -/
def joinLines? (b : Bytes) : Option Bytes :=
  if (b.drop lineWidth).isEmpty then some b
  else
    match _h : dropLineEnd? (b.drop lineWidth) with
    | none => none
    | some rest => (joinLines? rest).map (b.take lineWidth ++ ·)
termination_by b.length
decreasing_by
  have := length_lt_of_dropLineEnd? ‹dropLineEnd? (b.drop lineWidth) = some rest›
  simp only [List.length_drop] at this
  omega

def decode? (b : Bytes) : Option Block := do
  let b ← dropPreamble? b
  let b ← dropPrefix? beginMark b
  let (label, b) ← takeLabel? false b
  let b ← dropPrefix? dashes b
  let b ← dropLineEnd? b
  let b := (dropLastLineEnd? b).getD b
  let b ← dropSuffix? dashes b
  let b ← dropSuffix? label b
  let b ← dropSuffix? endMark b
  let lines ← dropLastLineEnd? b
  let symbols ← joinLines? lines
  let content ← Base64.decode? symbols
  return ⟨label, content⟩

def wrapLines (b : Bytes) : Bytes :=
  if (b.drop lineWidth).isEmpty then b ++ [10]
  else b.take lineWidth ++ 10 :: wrapLines (b.drop lineWidth)
termination_by b.length
decreasing_by simp only [List.isEmpty_iff, List.drop_eq_nil_iff, List.length_drop, lineWidth] at *; omega

def Block.encode (p : Block) : Bytes :=
  beginMark ++ p.label ++ dashes ++ [10] ++ wrapLines (Base64.encode p.content)
    ++ endMark ++ p.label ++ dashes ++ [10]

end Signet.Pem
