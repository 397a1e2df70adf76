import Signet.Certificate.Basic
import Signet.Proofs.Der.Record
import Signet.Proofs.Der.Time
import Signet.Proofs.Result

/-!
# Certificates that were written

A certificate whose parts are valid and whose written form is not too long is read back from its element, whichever
way context-specific fields are read.
-/

namespace Signet

/-! ## Names -/

namespace Attribute

def IsValid (a : Attribute) : Prop := Der.isKnownTag a.value.tag = true

theorem ofElement?_toElement {a : Attribute} (h : a.toElement.Fits) (hv : a.IsValid) :
    ofElement? a.toElement = some a := by
  have hparts : a.toElement.parts? Der.sequenceTag = some [.ofOid a.type, a.value] :=
    h.parts? (by simp only [List.forall_mem_cons]; exact ⟨rfl, hv, nofun⟩)
  simp only [ofElement?, hparts, Option.bind_eq_bind, Option.bind_some, Der.Element.oid?_ofOid]
  rfl

end Attribute

namespace AttributeSet

def IsValid (s : AttributeSet) : Prop := ∀ a ∈ s.attributes, a.IsValid

theorem ofList?_attributes (s : AttributeSet) : ofList? s.attributes = some s := by
  have hsorted : (s.attributes.mergeSort fun a b => decide (a.encode ≤ b.encode)) = s.attributes :=
    List.mergeSort_of_pairwise (s.sorted.imp fun h => decide_eq_true (List.le_of_lt h))
  simp only [ofList?, hsorted, s.sorted, dite_true]

theorem ofElement?_toElement {s : AttributeSet} (h : s.toElement.Fits) (hv : s.IsValid) :
    ofElement? s.toElement = some s := by
  have hparts : s.toElement.parts? Der.setTag = some (s.attributes.map Attribute.toElement) := h.parts?_map fun _ => rfl
  have hread : ∀ a ∈ s.attributes, Attribute.ofElement? a.toElement = some (id a) := fun a ha =>
    Attribute.ofElement?_toElement (h.part (List.mem_map_of_mem ha) rfl) (hv a ha)
  simp only [ofElement?, hparts, Option.bind_eq_bind, Option.bind_some, mapM_map_eq_some hread, List.map_id,
    ofList?_attributes]

end AttributeSet

namespace Name

def IsValid (n : Name) : Prop := ∀ s ∈ n, s.IsValid

theorem ofElement?_toElement {n : Name} (h : n.toElement.Fits) (hv : n.IsValid) : ofElement? n.toElement = some n := by
  have hparts : n.toElement.parts? Der.sequenceTag = some (n.map AttributeSet.toElement) := h.parts?_map fun _ => rfl
  have hread : ∀ s ∈ n, AttributeSet.ofElement? s.toElement = some (id s) := fun s hs =>
    AttributeSet.ofElement?_toElement (h.part (List.mem_map_of_mem hs) rfl) (hv s hs)
  simp only [ofElement?, hparts, Option.bind_eq_bind, Option.bind_some, mapM_map_eq_some hread, List.map_id]

theorem isValid_ofTexts (fields : List (Der.Oid × String)) : IsValid (ofTexts fields) := by
  intro s hs a ha
  obtain ⟨f, -, rfl⟩ := List.mem_map.mp hs
  obtain rfl := List.mem_singleton.mp ha
  exact (by decide : Der.isKnownTag Der.utf8Tag = true)

end Name

/-! ## Validities and extensions -/

namespace Validity

structure IsValid (v : Validity) : Prop where
  notBefore : v.notBefore.IsValid
  notAfter : v.notAfter.IsValid

theorem ofElement?_toElement {v : Validity} (hv : v.IsValid) : ofElement? v.toElement = some v := by
  have hfits : ∀ e ∈ [Der.Element.ofTime v.notBefore, .ofTime v.notAfter], e.Fits := by
    simp only [List.forall_mem_cons]
    exact ⟨Der.Element.fits_ofTime _, Der.Element.fits_ofTime _, nofun⟩
  have hparts : v.toElement.parts? Der.sequenceTag = some [.ofTime v.notBefore, .ofTime v.notAfter] :=
    Der.Element.parts?_node hfits
  simp only [ofElement?, hparts, Option.bind_eq_bind, Option.bind_some, Der.Element.time?_ofTime hv.notBefore,
    Der.Element.time?_ofTime hv.notAfter]
  rfl

end Validity

theorem Extension.ofElement?_toElement {x : Extension} (h : x.toElement.Fits) : ofElement? x.toElement = some x := by
  have htrue : (Der.Element.ofBool true).bool? = some true := by decide
  obtain ⟨id, critical, value⟩ := x
  cases critical with
  | false =>
    have hknown : ∀ e ∈ [Der.Element.ofOid id, .ofOctets value], Der.isKnownTag e.tag = true := by
      simp only [List.forall_mem_cons]
      exact ⟨rfl, rfl, nofun⟩
    have hparts : (toElement ⟨id, false, value⟩).parts? Der.sequenceTag = some [.ofOid id, .ofOctets value] :=
      h.parts? hknown
    simp only [ofElement?, hparts, Option.bind_eq_bind, Option.bind_some, Der.Element.oid?_ofOid,
      Der.Element.octets?_ofOctets]
    rfl
  | true =>
    have hknown : ∀ e ∈ [Der.Element.ofOid id, .ofBool true, .ofOctets value], Der.isKnownTag e.tag = true := by
      simp only [List.forall_mem_cons]
      exact ⟨rfl, rfl, rfl, nofun⟩
    have hparts : (toElement ⟨id, true, value⟩).parts? Der.sequenceTag
        = some [.ofOid id, .ofBool true, .ofOctets value] := h.parts? hknown
    simp only [ofElement?, hparts, Option.bind_eq_bind, Option.bind_some, Der.Element.oid?_ofOid,
      Der.Element.octets?_ofOctets, htrue]
    rfl

theorem SerialNumber.ofElement?_toElement (s : SerialNumber) : ofElement? s.toElement = some s := by
  have hcontent : s.toElement.content? Der.integerTag = some s.content := if_pos rfl
  simp only [ofElement?, hcontent, Option.bind_eq_bind, Option.bind_some]
  exact dif_pos ⟨s.canonical, s.short⟩

theorem CertificateVersion.ofNumber?_number (v : CertificateVersion) : ofNumber? v.number = some v := by
  cases v <;> rfl

/-! ## Bodies -/

namespace CertificateBody

open Der Der.Element

structure IsValid (b : CertificateBody) : Prop where
  algorithm : b.algorithm.IsValid
  issuer : b.issuer.IsValid
  validity : b.validity.IsValid
  subject : b.subject.IsValid
  publicKey : b.publicKey.IsValid
  issuerId : ∀ s ∈ b.issuerId, s.IsValid
  subjectId : ∀ s ∈ b.subjectId, s.IsValid

def versionField (v : CertificateVersion) : Option Element :=
  if v = .v1 then none else some (node (constructedTag 0) [.ofNat v.number])

def idField (n : UInt8) (s : Option BitString) : Option Element := s.map fun s => ⟨primitiveTag n, s.content⟩

def extensionsField (xs : Option (List Extension)) : Option Element :=
  xs.map fun xs => node (constructedTag 3) [.sequence (xs.map Extension.toElement)]

/-- The parts of a body that are always there. -/
def required (b : CertificateBody) : List Element :=
  [b.serial.toElement, b.algorithm.toElement, b.issuer.toElement, b.validity.toElement, b.subject.toElement,
    b.publicKey.toElement]

/-- The optional parts behind them. -/
def optional (b : CertificateBody) : List Element :=
  (idField 1 b.issuerId).toList ++ ((idField 2 b.subjectId).toList ++ (extensionsField b.extensions).toList)

theorem toElement_eq (b : CertificateBody) :
    b.toElement = .sequence ((versionField b.version).toList ++ (b.required ++ b.optional)) := by
  obtain ⟨v, serial, algorithm, issuer, validity, subject, key, issuerId, subjectId, xs⟩ := b
  cases v <;> cases issuerId <;> cases subjectId <;> cases xs <;> rfl

theorem version?_versionField {v : CertificateVersion} (h : ∀ e ∈ versionField v, e.Fits) :
    version? (versionField v) = some v := by
  unfold versionField at h ⊢
  split
  · next hv =>
    rw [hv]
    rfl
  · next hv =>
    rw [if_neg hv] at h
    have hparts := (h _ rfl).parts? (List.forall_mem_singleton.mpr rfl)
    simp only [version?, explicit?, hparts, Option.bind_eq_bind, Option.bind_some, nat?_ofNat,
      CertificateVersion.ofNumber?_number]

theorem uniqueId?_idField (n : UInt8) {s : Option BitString} (h : ∀ t ∈ s, t.IsValid) :
    uniqueId? n (idField n s) = some s := by
  cases s with
  | none => rfl
  | some s =>
    have hcontent : content? (primitiveTag n) ⟨primitiveTag n, s.content⟩ = some s.content := if_pos rfl
    simp only [idField, Option.map_some, uniqueId?, hcontent, Option.bind_eq_bind, Option.bind_some,
      BitString.ofContent?_content (h s rfl)]
    rfl

theorem extensions?_extensionsField {xs : Option (List Extension)} (h : ∀ e ∈ extensionsField xs, e.Fits) :
    extensions? (extensionsField xs) = some xs := by
  cases xs with
  | none => rfl
  | some xs =>
    have hfield := h _ rfl
    have hparts := hfield.parts? (List.forall_mem_singleton.mpr rfl)
    have hrow : (sequence (xs.map Extension.toElement)).Fits := hfield.part (List.mem_singleton.mpr rfl) rfl
    have hrows : (sequence (xs.map Extension.toElement)).parts? sequenceTag = some (xs.map Extension.toElement) :=
      hrow.parts?_map fun _ => rfl
    have hread : ∀ x ∈ xs, Extension.ofElement? x.toElement = some (id x) := fun x hx =>
      Extension.ofElement?_toElement (hrow.part (List.mem_map_of_mem hx) rfl)
    simp only [extensionsField, Option.map_some, extensions?, explicit?, hparts, Option.bind_eq_bind, Option.bind_some,
      hrows, mapM_map_eq_some hread, List.map_id]
    rfl

theorem tag_versionField {v : CertificateVersion} : ∀ e ∈ versionField v, e.tag = constructedTag 0 := by
  unfold versionField
  split
  · exact nofun
  · rintro e ⟨⟩
    rfl

theorem tag_idField {n : UInt8} {s : Option BitString} : ∀ e ∈ idField n s, e.tag = primitiveTag n := by
  intro e he
  obtain ⟨s, -, rfl⟩ := Option.map_eq_some_iff.mp he
  rfl

theorem tag_extensionsField {xs : Option (List Extension)} : ∀ e ∈ extensionsField xs, e.tag = constructedTag 3 := by
  intro e he
  obtain ⟨xs, -, rfl⟩ := Option.map_eq_some_iff.mp he
  rfl

theorem tag_required {b : CertificateBody} : ∀ e ∈ b.required, e.tag ∈ [integerTag, sequenceTag] := by
  have hinteger : integerTag ∈ [integerTag, sequenceTag] := by decide
  have hsequence : sequenceTag ∈ [integerTag, sequenceTag] := by decide
  simp only [required, List.forall_mem_cons]
  exact ⟨hinteger, hsequence, hsequence, hsequence, hsequence, hsequence, nofun⟩

theorem tag_optional {b : CertificateBody} :
    ∀ e ∈ b.optional, e.tag ∈ [primitiveTag 1, primitiveTag 2, constructedTag 3] := by
  intro e he
  simp only [optional, List.mem_append, Option.mem_toList] at he
  rcases he with he | he | he
  · rw [tag_idField e he]
    decide
  · rw [tag_idField e he]
    decide
  · rw [tag_extensionsField e he]
    decide

theorem parts?_toElement {b : CertificateBody} (h : b.toElement.Fits) :
    b.toElement.parts? sequenceTag = some ((versionField b.version).toList ++ (b.required ++ b.optional)) := by
  have hrequired : ∀ t ∈ [integerTag, sequenceTag], isKnownTag t = true := List.all_eq_true.mp rfl
  have hoptional : ∀ t ∈ [primitiveTag 1, primitiveTag 2, constructedTag 3], isKnownTag t = true :=
    List.all_eq_true.mp rfl
  rw [toElement_eq] at h ⊢
  refine h.parts? fun e he => ?_
  simp only [List.mem_append, Option.mem_toList] at he
  rcases he with he | he | he
  · rw [tag_versionField e he]
    decide
  · exact hrequired _ (tag_required e he)
  · exact hoptional _ (tag_optional e he)

theorem field?_version (b : CertificateBody) :
    field? 0 ((versionField b.version).toList ++ (b.required ++ b.optional))
      = (versionField b.version, b.required ++ b.optional) := by
  have hrequired : ∀ t ∈ [integerTag, sequenceTag], isField t = false := by
    simp only [List.forall_mem_cons]
    exact ⟨rfl, rfl, nofun⟩
  have hoptional : ∀ t ∈ [primitiveTag 1, primitiveTag 2, constructedTag 3], 0 < fieldNumber t := by
    simp only [List.forall_mem_cons]
    exact ⟨by decide, by decide, by decide, nofun⟩
  refine field?_append (fun e he => ?_) fun e he hfield => ?_
  · rw [tag_versionField e he]
    decide
  · rcases List.mem_append.mp he with he | he
    · rw [hrequired _ (tag_required e he)] at hfield
      cases hfield
    · exact hoptional _ (tag_optional e he)

theorem field?_issuerId (b : CertificateBody) :
    field? 1 b.optional
      = (idField 1 b.issuerId, (idField 2 b.subjectId).toList ++ (extensionsField b.extensions).toList) := by
  refine field?_append (fun e he => ?_) fun e he _ => ?_
  · rw [tag_idField e he]
    decide
  · simp only [List.mem_append, Option.mem_toList] at he
    rcases he with he | he
    · rw [tag_idField e he]
      decide
    · rw [tag_extensionsField e he]
      decide

theorem field?_subjectId (b : CertificateBody) :
    field? 2 ((idField 2 b.subjectId).toList ++ (extensionsField b.extensions).toList)
      = (idField 2 b.subjectId, (extensionsField b.extensions).toList) := by
  refine field?_append (fun e he => ?_) fun e he _ => ?_
  · rw [tag_idField e he]
    decide
  · rw [tag_extensionsField e (Option.mem_toList.mp he)]
    decide

theorem field?_extensions (b : CertificateBody) :
    field? 3 (extensionsField b.extensions).toList = (extensionsField b.extensions, []) := by
  rw [← List.append_nil (extensionsField b.extensions).toList]
  refine field?_append (fun e he => ?_) nofun
  rw [tag_extensionsField e he]
  decide

theorem ofElement?_toElement {b : CertificateBody} (h : b.toElement.Fits) (hv : b.IsValid) (lenient : Bool) :
    ofElement? lenient b.toElement = some b := by
  have hform := b.toElement_eq
  have hparts := parts?_toElement h
  have hpart : ∀ e ∈ (versionField b.version).toList ++ (b.required ++ b.optional), isKnownTag e.tag = true → e.Fits := by
    rw [hform] at h
    exact fun e he => h.part he
  have hversion := version?_versionField (v := b.version) fun e he =>
    hpart e (by simp [Option.mem_def.mp he]) (by rw [tag_versionField e he]; decide)
  have halgorithm := AlgorithmIdentifier.ofElement?_toElement (hpart _ (by simp [required]) rfl) hv.algorithm
  have hissuer := Name.ofElement?_toElement (hpart _ (by simp [required]) rfl) hv.issuer
  have hsubject := Name.ofElement?_toElement (hpart _ (by simp [required]) rfl) hv.subject
  have hkey := PublicKeyInfo.ofElement?_toElement (hpart _ (by simp [required]) rfl) hv.publicKey
  have hextensions : extensions? (extensionsField b.extensions) = some b.extensions :=
    extensions?_extensionsField fun e he =>
      hpart e (by simp [optional, Option.mem_def.mp he]) (by rw [tag_extensionsField e he]; decide)
  rw [ofElement?, hparts, Option.bind_eq_bind, Option.bind_some, field?_version]
  dsimp only [required, List.cons_append, List.nil_append]
  rw [field?_issuerId]
  dsimp only
  rw [field?_subjectId]
  dsimp only
  rw [field?_extensions]
  dsimp only
  rw [hversion, SerialNumber.ofElement?_toElement, halgorithm, hissuer, Validity.ofElement?_toElement hv.validity,
    hsubject, hkey, uniqueId?_idField 1 hv.issuerId, uniqueId?_idField 2 hv.subjectId, hextensions]
  exact if_pos ⟨rfl, .inr (List.append_assoc ..)⟩

end CertificateBody

namespace Certificate

structure IsValid (c : Certificate) : Prop where
  body : c.body.IsValid
  algorithm : c.algorithm.IsValid
  signature : c.signature.IsValid

theorem parts?_toElement {c : Certificate} (h : c.toElement.Fits) :
    c.toElement.parts? Der.sequenceTag = some [c.body.toElement, c.algorithm.toElement, .ofBitString c.signature] :=
  h.parts? (by simp only [List.forall_mem_cons]; exact ⟨rfl, rfl, rfl, nofun⟩)

theorem ofElement?_toElement {c : Certificate} (h : c.toElement.Fits) (hv : c.IsValid) (lenient : Bool) :
    ofElement? lenient c.toElement = some c := by
  have hparts := parts?_toElement h
  have hbody := CertificateBody.ofElement?_toElement (h.part (by simp) rfl) hv.body lenient
  have halgorithm := Der.AlgorithmIdentifier.ofElement?_toElement (h.part (by simp) rfl) hv.algorithm
  simp only [ofElement?, hparts, Option.bind_eq_bind, Option.bind_some, hbody, halgorithm,
    Der.Element.bitString?_ofBitString hv.signature]
  rfl

end Certificate

end Signet
