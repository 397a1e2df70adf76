import Signet.Bytes

/-!
# DER elements

An element is a tag byte, the length of the content and the content. Lengths are definite, take as few bytes
as possible and stay below `2 ^ 28`. The content of a constructed element is a row of elements.
-/

namespace Signet.Der

structure Element where
  tag : UInt8
  content : Bytes
deriving DecidableEq, Repr

def maxLength : Nat := 0xfffffff

def booleanTag : UInt8 := 0x01

def integerTag : UInt8 := 0x02

def bitStringTag : UInt8 := 0x03

def octetStringTag : UInt8 := 0x04

def oidTag : UInt8 := 0x06

def utf8Tag : UInt8 := 0x0c

def utcTimeTag : UInt8 := 0x17

def generalizedTimeTag : UInt8 := 0x18

def sequenceTag : UInt8 := 0x30

def setTag : UInt8 := 0x31

/-- The tag of the constructed context-specific field `n`. -/
def constructedTag (n : UInt8) : UInt8 := 0xa0 + n

/-- The tag of the primitive context-specific field `n`. -/
def primitiveTag (n : UInt8) : UInt8 := 0x80 + n

/-- Whether a tag byte can start an element: one of the universal types that are in use, or a field of
another class with a number below 31. -/
def isKnownTag (t : UInt8) : Bool :=
  if t < 0x40 then
    [0x01, 0x02, 0x03, 0x04, 0x05, 0x06, 0x09, 0x0a, 0x0c, 0x12, 0x13, 0x14, 0x15, 0x16, 0x17, 0x18, 0x1a,
      0x1e, 0x30, 0x31].contains t
  else t &&& 0x1f != 0x1f

def isField (t : UInt8) : Bool := t &&& 0xc0 == 0x80

def fieldNumber (t : UInt8) : UInt8 := t &&& 0x1f

/-- The bytes of a number without leading zeros, at least one. -/
def shortBytes (n : Nat) : Bytes := Bytes.ofNat (n.log2 / 8 + 1) n

def encodeLength (n : Nat) : Bytes :=
  if n < 128 then [UInt8.ofNat n] else UInt8.ofNat (128 + (shortBytes n).length) :: shortBytes n

/-- Takes a length off the front of a byte string. -/
def length? : Bytes → Option (Nat × Bytes)
  | [] => none
  | x :: b =>
    if x < 128 then some (x.toNat, b)
    else
      let k := x.toNat - 128
      let n := Bytes.toNat (b.take k)
      if k ≤ 4 ∧ n ≤ maxLength ∧ encodeLength n = x :: b.take k then some (n, b.drop k) else none

def Element.encode (e : Element) : Bytes := e.tag :: encodeLength e.content.length ++ e.content

/-- Takes an element off the front of a byte string. -/
def element? : Bytes → Option (Element × Bytes)
  | [] => none
  | t :: b =>
    if isKnownTag t then
      match length? b with
      | none => none
      | some (n, c) => if n ≤ c.length then some (⟨t, c.take n⟩, c.drop n) else none
    else none

theorem length_le_of_length? {b c : Bytes} {n : Nat} (h : length? b = some (n, c)) : c.length ≤ b.length := by
  unfold length? at h
  split at h
  · simp at h
  · split at h
    · simp_all
    · simp only [Option.ite_none_right_eq_some, Option.some.injEq, Prod.mk.injEq] at h
      rw [← h.2.2]
      simp only [List.length_drop, List.length_cons]
      omega

theorem length_lt_of_element? {b c : Bytes} {e : Element} (h : element? b = some (e, c)) :
    c.length < b.length := by
  unfold element? at h
  split at h
  · simp at h
  · split at h
    · split at h
      · simp at h
      · next hl =>
        have := length_le_of_length? hl
        simp only [Option.ite_none_right_eq_some, Option.some.injEq, Prod.mk.injEq] at h
        rw [← h.2.2]
        simp only [List.length_drop, List.length_cons]
        omega
    · simp at h

/-- The elements that a byte string is a row of. -/
def elements? (b : Bytes) : Option (List Element) :=
  if b = [] then some []
  else
    match _h : element? b with
    | none => none
    | some (e, c) => (elements? c).map (e :: ·)
termination_by b.length
decreasing_by exact length_lt_of_element? ‹element? b = some (e, c)›

def encodeAll (es : List Element) : Bytes := es.flatMap Element.encode

namespace Element

def ofBytes? (b : Bytes) : Option Element :=
  match element? b with
  | some (e, []) => some e
  | _ => none

def node (tag : UInt8) (parts : List Element) : Element := ⟨tag, encodeAll parts⟩

def sequence (parts : List Element) : Element := node sequenceTag parts

def content? (tag : UInt8) (e : Element) : Option Bytes := if e.tag = tag then some e.content else none

def parts? (tag : UInt8) (e : Element) : Option (List Element) := (e.content? tag).bind elements?

/-- The only part of an explicit context-specific field `n`. -/
def explicit? (n : UInt8) (e : Element) : Option Element := do
  match ← e.parts? (constructedTag n) with
  | [part] => some part
  | _ => none

end Element

/-- The context-specific field `n` of a row of elements, if it comes next, and the rest. Fields with a
smaller number in front of it are passed over. -/
def field? (n : UInt8) : List Element → Option Element × List Element
  | [] => (none, [])
  | e :: es =>
    if isField e.tag ∧ fieldNumber e.tag < n then field? n es
    else if isField e.tag ∧ fieldNumber e.tag = n then (some e, es)
    else (none, e :: es)

end Signet.Der
