import Signet.Proofs.Certificate.Record
import Signet.Proofs.Der.Decoding
import Mathlib.Data.List.Forall2

/-!
# Records of certificates that were read

A serial number, an attribute and a validity are read from their own elements only. A set of attributes is read from its
members in any order, and an extension that is not critical may say so. An element without these liberties is strict:
what is written is strict, and a strict element is the written form of what is read from it. No element is shorter than
this written form.
-/

namespace Signet

namespace Der.Element

/-- The parts of an element with the given tag. -/
def row (t : UInt8) (e : Element) : List Element := (e.parts? t).getD []

theorem row_of_parts? {t : UInt8} {e : Element} {es : List Element} (h : e.parts? t = some es) : e.row t = es := by
  rw [row, h, Option.getD_some]

end Der.Element

open Der

/-! ## Exact records -/

theorem SerialNumber.eq_toElement_of_ofElement? {e : Element} {s : SerialNumber} (h : ofElement? e = some s) :
    e = s.toElement := by
  obtain ⟨b, hb, hread⟩ := Option.bind_eq_some_iff.mp h
  split at hread
  · cases hread
    exact Element.content?_eq_some.mp hb
  · cases hread

theorem Validity.eq_toElement_of_ofElement? {e : Element} {v : Validity} (h : ofElement? e = some v) :
    e = v.toElement ∧ v.IsValid := by
  obtain ⟨es, hes, hread⟩ := Option.bind_eq_some_iff.mp h
  split at hread
  · simp only [Option.bind_eq_bind, Option.bind_eq_some_iff] at hread
    obtain ⟨notBefore, hb, notAfter, ha, hread⟩ := hread
    cases hread
    obtain ⟨rfl, hbefore⟩ := Element.eq_ofTime_of_time? hb
    obtain ⟨rfl, hafter⟩ := Element.eq_ofTime_of_time? ha
    exact ⟨(Element.parts?_eq_some.mp hes).2, hbefore, hafter⟩
  · cases hread

theorem Attribute.eq_toElement_of_ofElement? {e : Element} {a : Attribute} (h : ofElement? e = some a) :
    e = a.toElement ∧ a.IsValid := by
  obtain ⟨es, hes, hread⟩ := Option.bind_eq_some_iff.mp h
  obtain ⟨hfits, he⟩ := Element.parts?_eq_some.mp hes
  split at hread
  · next t v =>
    obtain ⟨type, ht, hread⟩ := Option.bind_eq_some_iff.mp hread
    cases hread
    rw [Element.oid?_eq_some.mp ht] at he
    exact ⟨he, (hfits v (by simp)).known⟩
  · cases hread

/-! ## Extensions -/

namespace Extension

/-- An element does not say that its extension is not critical. -/
def IsStrict (e : Element) : Prop := .ofBool false ∉ e.row sequenceTag

variable {e : Element} {x : Extension}

/-- What an extension is read from: its own parts, with a remark that it is not critical or without one. -/
theorem exists_of_ofElement? (h : ofElement? e = some x) : e = x.toElement ∧ IsStrict e ∨
    x.critical = false ∧ e = .sequence [.ofOid x.id, .ofBool false, .ofOctets x.value] ∧ ¬IsStrict e := by
  obtain ⟨es, hes, hread⟩ := Option.bind_eq_some_iff.mp h
  have he := (Element.parts?_eq_some.mp hes).2
  rw [IsStrict, Element.row_of_parts? hes]
  split at hread
  · simp only [Option.bind_eq_bind, Option.bind_eq_some_iff] at hread
    obtain ⟨id, hid, value, hvalue, hread⟩ := hread
    cases hread
    rw [Element.oid?_eq_some.mp hid, Element.octets?_eq_some.mp hvalue] at he ⊢
    refine .inl ⟨he, ?_⟩
    simp [Element.ofBool, Element.ofOid, Element.ofOctets, booleanTag, oidTag, octetStringTag]
  · simp only [Option.bind_eq_bind, Option.bind_eq_some_iff] at hread
    obtain ⟨id, hid, critical, hcritical, value, hvalue, hread⟩ := hread
    cases hread
    rw [Element.oid?_eq_some.mp hid, Element.bool?_eq_some.mp hcritical, Element.octets?_eq_some.mp hvalue] at he ⊢
    cases critical with
    | false => exact .inr ⟨rfl, he, by simp⟩
    | true =>
      refine .inl ⟨he, ?_⟩
      simp [Element.ofBool, Element.ofOid, Element.ofOctets, booleanTag, oidTag, octetStringTag]
  · cases hread

theorem isStrict_toElement (h : x.toElement.Fits) : IsStrict x.toElement := by
  rcases exists_of_ofElement? (ofElement?_toElement h) with ⟨-, hstrict⟩ | ⟨hcritical, heq, -⟩
  · exact hstrict
  · -- The remark would make the written form longer than it is.
    have hlength := congrArg (fun e => e.content.length) heq
    simp only [toElement, hcritical, Bool.false_eq_true, if_false, List.append_nil, List.cons_append, List.nil_append,
      Element.sequence, Element.node, encodeAll, List.flatMap_cons, List.length_append] at hlength
    have hpos : 0 < (Element.ofBool false).encode.length := by decide
    omega

theorem eq_toElement_of_ofElement? (h : ofElement? e = some x) (hs : IsStrict e) : e = x.toElement := by
  rcases exists_of_ofElement? h with ⟨heq, -⟩ | ⟨-, -, hn⟩
  · exact heq
  · exact absurd hs hn

theorem length_encode_toElement_le (h : ofElement? e = some x) : x.toElement.encode.length ≤ e.encode.length := by
  rcases exists_of_ofElement? h with ⟨rfl, -⟩ | ⟨hcritical, rfl, -⟩
  · exact le_rfl
  · rw [toElement, hcritical]
    exact Element.length_node_mono (length_encodeAll_of_sublist (.cons_cons _ (.cons _ (.refl _))))

end Extension

/-! ## Names -/

namespace AttributeSet

/-- The members of a set stand in the order of their written forms. -/
def IsStrict (e : Element) : Prop := (e.row setTag).Pairwise fun a b => a.encode < b.encode

variable {e : Element} {s : AttributeSet}

/-- What a set is read from: the elements of its attributes in some order. -/
theorem exists_of_ofElement? (h : ofElement? e = some s) : ∃ as : List Attribute,
    e.parts? setTag = some (as.map Attribute.toElement) ∧ (∀ a ∈ as, a.IsValid) ∧
      s.attributes = as.mergeSort fun a b => decide (a.encode ≤ b.encode) := by
  simp only [ofElement?, Option.bind_eq_bind, Option.bind_eq_some_iff] at h
  obtain ⟨es, hes, as, has, hlist⟩ := h
  have hread := forall₂_of_mapM has
  have hes' : es = as.map Attribute.toElement :=
    eq_map_of_forall₂ (hread.imp fun _ _ h => (Attribute.eq_toElement_of_ofElement? h).1)
  refine ⟨as, by rw [hes, hes'], ?_, ?_⟩
  · exact forall_of_forall₂ hread fun _ _ h => (Attribute.eq_toElement_of_ofElement? h).2
  · simp only [ofList?] at hlist
    split at hlist
    · cases hlist
      rfl
    · cases hlist

theorem isValid_of_ofElement? (h : ofElement? e = some s) : s.IsValid := by
  obtain ⟨as, -, hvalid, hs⟩ := exists_of_ofElement? h
  intro a ha
  rw [hs, List.mem_mergeSort] at ha
  exact hvalid a ha

theorem isStrict_toElement (h : s.toElement.Fits) : IsStrict s.toElement := by
  have hparts : s.toElement.parts? setTag = some (s.attributes.map Attribute.toElement) := h.parts?_map fun _ => rfl
  rw [IsStrict, Element.row_of_parts? hparts, List.pairwise_map]
  exact s.sorted

theorem eq_toElement_of_ofElement? (h : ofElement? e = some s) (hs : IsStrict e) : e = s.toElement := by
  obtain ⟨as, hparts, -, hattributes⟩ := exists_of_ofElement? h
  rw [IsStrict, Element.row_of_parts? hparts, List.pairwise_map] at hs
  have hsorted : as.Pairwise fun a b => decide (a.encode ≤ b.encode) = true :=
    hs.imp fun h => decide_eq_true (List.le_of_lt h)
  rw [(Element.parts?_eq_some.mp hparts).2, toElement, hattributes, List.mergeSort_of_pairwise hsorted]

theorem length_encode_toElement_le (h : ofElement? e = some s) : s.toElement.encode.length ≤ e.encode.length := by
  obtain ⟨as, hparts, -, hattributes⟩ := exists_of_ofElement? h
  rw [(Element.parts?_eq_some.mp hparts).2, toElement, hattributes]
  have hperm := (List.mergeSort_perm as fun a b => decide (a.encode ≤ b.encode)).map Attribute.toElement
  exact Element.length_node_mono (hperm.flatMap_right _).length_eq.le

end AttributeSet

namespace Name

/-- All sets of a name are strict. -/
def IsStrict (e : Element) : Prop := ∀ s ∈ e.row sequenceTag, AttributeSet.IsStrict s

variable {e : Element} {n : Name}

theorem exists_of_ofElement? (h : ofElement? e = some n) : ∃ es, e.parts? sequenceTag = some es ∧
    List.Forall₂ (fun e s => AttributeSet.ofElement? e = some s) es n := by
  obtain ⟨es, hes, hread⟩ := Option.bind_eq_some_iff.mp h
  exact ⟨es, hes, forall₂_of_mapM hread⟩

theorem isValid_of_ofElement? (h : ofElement? e = some n) : IsValid n := by
  obtain ⟨es, -, hread⟩ := exists_of_ofElement? h
  exact forall_of_forall₂ hread fun _ _ h => AttributeSet.isValid_of_ofElement? h

theorem isStrict_toElement (h : n.toElement.Fits) : IsStrict n.toElement := by
  have hparts : n.toElement.parts? sequenceTag = some (n.map AttributeSet.toElement) := h.parts?_map fun _ => rfl
  rw [IsStrict, Element.row_of_parts? hparts]
  intro e he
  obtain ⟨s, -, rfl⟩ := List.mem_map.mp he
  exact AttributeSet.isStrict_toElement (h.part he rfl)

theorem eq_toElement_of_ofElement? (h : ofElement? e = some n) (hs : IsStrict e) : e = n.toElement := by
  obtain ⟨es, hparts, hread⟩ := exists_of_ofElement? h
  rw [IsStrict, Element.row_of_parts? hparts] at hs
  have hexact := (List.forall₂_and_left es n).mpr ⟨hs, hread⟩
  have hes : es = n.map AttributeSet.toElement :=
    eq_map_of_forall₂ (hexact.imp fun _ _ h => AttributeSet.eq_toElement_of_ofElement? h.2 h.1)
  rw [(Element.parts?_eq_some.mp hparts).2, hes, toElement, Element.sequence]

theorem length_encode_toElement_le (h : ofElement? e = some n) : n.toElement.encode.length ≤ e.encode.length := by
  obtain ⟨es, hparts, hread⟩ := exists_of_ofElement? h
  rw [(Element.parts?_eq_some.mp hparts).2]
  refine Element.length_node_mono (length_encodeAll_of_forall₂ (List.forall₂_map_left_iff.mpr ?_))
  exact (hread.imp fun _ _ h => AttributeSet.length_encode_toElement_le h).flip

end Name

end Signet
