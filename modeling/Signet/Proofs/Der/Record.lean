import Signet.Der.Algorithm
import Signet.Proofs.Der.Element

/-!
# Records that were written

The parts of an element that can be written can be written too if their tags are known. So a record is read back from
its element as soon as the whole element is not too long.
-/

namespace Signet.Der

namespace Element

theorem length_content_le_encode (e : Element) : e.content.length ≤ e.encode.length := by
  simp only [encode, List.length_append, List.length_cons]
  omega

variable {t : UInt8} {es : List Element}

theorem length_encode_le_of_mem {e : Element} (he : e ∈ es) : e.encode.length ≤ (node t es).content.length := by
  obtain ⟨before, after, rfl⟩ := List.append_of_mem he
  simp only [node, encodeAll, List.flatMap_append, List.flatMap_cons, List.length_append]
  omega

theorem Fits.part (h : (node t es).Fits) {e : Element} (he : e ∈ es) (hknown : isKnownTag e.tag = true) : e.Fits :=
  ⟨hknown, e.length_content_le_encode.trans ((length_encode_le_of_mem he).trans h.short)⟩

theorem Fits.parts? (h : (node t es).Fits) (hknown : ∀ e ∈ es, isKnownTag e.tag = true) :
    (node t es).parts? t = some es := parts?_node fun e he => h.part he (hknown e he)

theorem Fits.parts?_map {α : Type} {write : α → Element} {as : List α} (h : (node t (as.map write)).Fits)
    (hknown : ∀ a, isKnownTag (write a).tag = true) : (node t (as.map write)).parts? t = some (as.map write) :=
  h.parts? fun _ he => by
    obtain ⟨a, -, rfl⟩ := List.mem_map.mp he
    exact hknown a

theorem Fits.of_encode {e : Element} (hknown : isKnownTag e.tag = true) (h : e.encode.length ≤ maxLength) : e.Fits :=
  ⟨hknown, e.length_content_le_encode.trans h⟩

end Element

/-! ## Object identifiers -/

theorem Oid.length_content_le (o : Oid) : o.content.length ≤ 39 := by
  have h := o.valid
  unfold arcs? at h
  split at h
  · cases h
  · split at h
    · next hx => exact hx.2.1
    · cases h

namespace Element

theorem fits_ofOid (o : Oid) : (ofOid o).Fits := ⟨rfl, o.length_content_le.trans (by decide)⟩

theorem oid?_ofOid (o : Oid) : (ofOid o).oid? = some o := by
  have hcontent : (ofOid o).content? oidTag = some o.content := if_pos rfl
  rw [oid?, hcontent, Option.bind_some, Oid.ofContent?, dif_pos o.valid]

end Element

/-! ## Strings -/

/-- At most seven bits are unused, and none where there is no byte. -/
def BitString.IsValid (s : BitString) : Prop := s.unused ≤ 7 ∧ (s.unused ≠ 0 → s.bytes ≠ [])

theorem BitString.isValid_ofBytes (b : Bytes) : (ofBytes b).IsValid := 
  ⟨(by decide : (0 : UInt8) ≤ 7), fun h => absurd rfl h⟩

theorem BitString.ofContent?_content {s : BitString} (h : s.IsValid) : ofContent? s.content = some s := by
  obtain ⟨hunused, hbytes⟩ := h
  rw [content, ofContent?, if_neg]
  rintro (hlt | ⟨hne, hnil⟩)
  · exact absurd hunused (UInt8.not_le.mpr hlt)
  · exact hbytes hne hnil

theorem Element.bitString?_ofBitString {s : BitString} (h : s.IsValid) : (ofBitString s).bitString? = some s := by
  have hcontent : (ofBitString s).content? bitStringTag = some s.content := if_pos rfl
  rw [bitString?, hcontent, Option.bind_some, BitString.ofContent?_content h]

theorem Element.octets?_ofOctets (b : Bytes) : (ofOctets b).octets? = some b := by
  have hcontent : (ofOctets b).content? octetStringTag = some b := if_pos rfl
  rw [octets?, hcontent]

/-! ## Algorithms and keys -/

namespace AlgorithmIdentifier

/-- The parameter of an algorithm may be any element with a known tag. -/
def IsValid (a : AlgorithmIdentifier) : Prop := ∀ p ∈ a.parameters, isKnownTag p.tag = true

theorem isValid_ofCurve (o : Oid) : (ofCurve o).IsValid := by
  rintro p ⟨⟩
  rfl

theorem ofElement?_toElement {a : AlgorithmIdentifier} (h : a.toElement.Fits) (hv : a.IsValid) :
    ofElement? a.toElement = some a := by
  obtain ⟨o, _ | p⟩ := a
  · have hparts := h.parts? (List.forall_mem_singleton.mpr rfl)
    simp only [ofElement?, toElement, Element.sequence, Option.toList] at hparts ⊢
    simp only [hparts, Option.bind_eq_bind, Option.bind_some, Element.oid?_ofOid]
    rfl
  · have hp : isKnownTag p.tag = true := hv p rfl
    have hparts := h.parts? (List.forall_mem_cons.mpr ⟨rfl, List.forall_mem_singleton.mpr hp⟩)
    simp only [ofElement?, toElement, Element.sequence, Option.toList] at hparts ⊢
    simp only [hparts, Option.bind_eq_bind, Option.bind_some, Element.oid?_ofOid]
    rfl

end AlgorithmIdentifier

namespace PublicKeyInfo

structure IsValid (k : PublicKeyInfo) : Prop where
  algorithm : k.algorithm.IsValid
  key : k.key.IsValid

theorem ofElement?_toElement {k : PublicKeyInfo} (h : k.toElement.Fits) (hv : k.IsValid) :
    ofElement? k.toElement = some k := by
  have halgorithm : k.algorithm.toElement.Fits := h.part (by simp) rfl
  have hparts : k.toElement.parts? sequenceTag = some [k.algorithm.toElement, .ofBitString k.key] :=
    h.parts? (by simp only [List.forall_mem_cons]; exact ⟨rfl, rfl, nofun⟩)
  simp only [ofElement?, hparts, Option.bind_eq_bind, Option.bind_some,
    AlgorithmIdentifier.ofElement?_toElement halgorithm hv.algorithm, Element.bitString?_ofBitString hv.key]
  rfl

end PublicKeyInfo

/-! ## Optional fields -/

/-- An optional field is found if no later part could be taken for it or for one that is passed over. -/
theorem field?_append {n : UInt8} {field : Option Element} {rest : List Element}
    (hfield : ∀ e ∈ field, isField e.tag = true ∧ fieldNumber e.tag = n)
    (hrest : ∀ e ∈ rest, isField e.tag = true → n < fieldNumber e.tag) :
    field? n (field.toList ++ rest) = (field, rest) := by
  cases field with
  | none =>
    cases rest with
    | nil => rfl
    | cons e es =>
      have hlater := hrest e (List.mem_cons_self ..)
      rw [Option.toList_none, List.nil_append, field?, if_neg, if_neg]
      · rintro ⟨hf, rfl⟩
        exact UInt8.lt_irrefl _ (hlater hf)
      · rintro ⟨hf, hlt⟩
        exact UInt8.lt_irrefl _ (UInt8.lt_trans hlt (hlater hf))
  | some e =>
    obtain ⟨hf, hn⟩ := hfield e rfl
    rw [Option.toList_some, List.singleton_append, field?, if_neg, if_pos ⟨hf, hn⟩]
    rintro ⟨-, hlt⟩
    rw [hn] at hlt
    exact UInt8.lt_irrefl _ hlt

end Signet.Der
