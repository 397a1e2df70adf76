import Signet.Certificate.Oids
import Signet.Der.Element

/-!
# Names

A name is a list of sets of attributes. The attributes of a set stand in the order of their written forms, and no
two of them are equal.
-/

namespace Signet

structure Attribute where
  type : Der.Oid
  value : Der.Element
deriving DecidableEq, Repr

namespace Attribute

def toElement (a : Attribute) : Der.Element := .sequence [.ofOid a.type, a.value]

def ofElement? (e : Der.Element) : Option Attribute := do
  match ← e.parts? Der.sequenceTag with
  | [t, v] => return ⟨← t.oid?, v⟩
  | _ => none

def encode (a : Attribute) : Bytes := a.toElement.encode

end Attribute

structure AttributeSet where
  attributes : List Attribute
  sorted : attributes.Pairwise fun a b => a.encode < b.encode
deriving DecidableEq

namespace AttributeSet

/-- The set of the given attributes, if they are different. -/
def ofList? (as : List Attribute) : Option AttributeSet :=
  let s := as.mergeSort fun a b => decide (a.encode ≤ b.encode)
  if h : s.Pairwise fun a b => a.encode < b.encode then some ⟨s, h⟩ else none

def single (a : Attribute) : AttributeSet := ⟨[a], List.pairwise_singleton _ _⟩

def toElement (s : AttributeSet) : Der.Element := .node Der.setTag (s.attributes.map Attribute.toElement)

/-- The set of an element, whose attributes stand in any order. -/
def ofElement? (e : Der.Element) : Option AttributeSet := do
  ofList? (← (← e.parts? Der.setTag).mapM Attribute.ofElement?)

end AttributeSet

abbrev Name := List AttributeSet

namespace Name

def toElement (n : Name) : Der.Element := .sequence (n.map AttributeSet.toElement)

def ofElement? (e : Der.Element) : Option Name := do
  (← e.parts? Der.sequenceTag).mapM AttributeSet.ofElement?

/-- The text of the first attribute of the given type, if its value is UTF-8. -/
def text? (n : Name) (type : Der.Oid) : Option String := do
  let a ← (n.flatMap AttributeSet.attributes).find? fun a => a.type == type
  Bytes.toString? a.value.content

/-- The name with an attribute of each given type and text. Empty texts are left out. -/
def ofTexts (fields : List (Der.Oid × String)) : Name :=
  (fields.filter fun f => f.2 != "").map fun f => .single ⟨f.1, ⟨Der.utf8Tag, Bytes.ofString f.2⟩⟩

end Name

end Signet
