import Signet.Proofs.Certificate.Reading

/-!
# Bodies that were read

What is kept of a body is its structure. Its element may take four liberties: it may write the first version, an
extension may say that it is not critical, the attributes of a set may stand in any order, and fields that are passed over
may stand behind the public key. The written form of what is read is the element itself exactly when it takes none of
them.
-/

namespace Signet

open Der

namespace CertificateBody

/-! ## Optional parts -/

/-- No extension of a field says that it is not critical. -/
def HasStrictExtensions (f : Element) : Prop :=
  ∀ xs ∈ f.row (constructedTag 3), ∀ x ∈ xs.row sequenceTag, Extension.IsStrict x

theorem tag_of_version? {field : Option Element} {v : CertificateVersion} (h : version? field = some v) :
    ∀ f ∈ field, f.tag = constructedTag 0 := by
  rintro f ⟨⟩
  obtain ⟨part, hpart, -⟩ := Option.bind_eq_some_iff.mp h
  rw [(Element.parts?_eq_some.mp (Element.explicit?_eq_some.mp hpart)).2]
  rfl

/-- A version is read from its own field, or the first one from a field that says so. -/
theorem eq_versionField_of_version? {field : Option Element} {v : CertificateVersion} (h : version? field = some v) :
    field = versionField v ∨ v = .v1 ∧ field = some (.node (constructedTag 0) [.ofNat 0]) := by
  cases field with
  | none =>
    cases h
    exact .inl rfl
  | some f =>
    simp only [version?, Option.bind_eq_bind, Option.bind_eq_some_iff] at h
    obtain ⟨part, hpart, n, hn, hv⟩ := h
    rw [(Element.parts?_eq_some.mp (Element.explicit?_eq_some.mp hpart)).2, Element.nat?_eq_some.mp hn]
    unfold CertificateVersion.ofNumber? at hv
    split at hv
    · cases hv
      exact .inr ⟨rfl, rfl⟩
    · cases hv
      exact .inl rfl
    · cases hv
      exact .inl rfl
    · cases hv

theorem eq_idField_of_uniqueId? {n : UInt8} {field : Option Element} {s : Option BitString}
    (h : uniqueId? n field = some s) : field = idField n s ∧ ∀ t ∈ s, t.IsValid := by
  cases field with
  | none =>
    cases h
    exact ⟨rfl, nofun⟩
  | some f =>
    simp only [uniqueId?, Option.bind_eq_bind, Option.bind_eq_some_iff] at h
    obtain ⟨t, ⟨b, hb, ht⟩, hs⟩ := h
    cases hs
    obtain ⟨rfl, hvalid⟩ := BitString.eq_content_of_ofContent? ht
    refine ⟨congrArg some (Element.content?_eq_some.mp hb), ?_⟩
    rintro t ⟨⟩
    exact hvalid

/-- What extensions are read from: a field with a row of their elements. -/
theorem exists_of_extensions? {f : Element} {xs : Option (List Extension)} (h : extensions? (some f) = some xs) :
    ∃ es ys, f = .node (constructedTag 3) [.sequence es] ∧ xs = some ys ∧
      (HasStrictExtensions f → ∀ e ∈ es, Extension.IsStrict e) ∧
      List.Forall₂ (fun e x => Extension.ofElement? e = some x) es ys := by
  simp only [extensions?, Option.bind_eq_bind, Option.bind_eq_some_iff] at h
  obtain ⟨part, hpart, es, hes, ys, hys, hxs⟩ := h
  cases hxs
  have hparts := Element.explicit?_eq_some.mp hpart
  refine ⟨es, ys, ?_, rfl, fun hs => ?_, forall₂_of_mapM hys⟩
  · rw [(Element.parts?_eq_some.mp hparts).2, (Element.parts?_eq_some.mp hes).2, Element.sequence]
  · rwa [HasStrictExtensions, Element.row_of_parts? hparts, List.forall_mem_singleton, Element.row_of_parts? hes] at hs

theorem eq_extensionsField_of_extensions? {field : Option Element} {xs : Option (List Extension)}
    (h : extensions? field = some xs) (hs : ∀ f ∈ field, HasStrictExtensions f) : field = extensionsField xs := by
  cases field with
  | none =>
    cases h
    rfl
  | some f =>
    obtain ⟨es, ys, rfl, rfl, hstrict, hread⟩ := exists_of_extensions? h
    have hexact := (List.forall₂_and_left es ys).mpr ⟨hstrict (hs _ rfl), hread⟩
    have hes : es = ys.map Extension.toElement :=
      eq_map_of_forall₂ (hexact.imp fun _ _ h => Extension.eq_toElement_of_ofElement? h.2 h.1)
    rw [hes]
    rfl

theorem length_extensionsField_le {field : Option Element} {xs : Option (List Extension)}
    (h : extensions? field = some xs) :
    (encodeAll (extensionsField xs).toList).length ≤ (encodeAll field.toList).length := by
  cases field with
  | none =>
    cases h
    exact le_rfl
  | some f =>
    obtain ⟨es, ys, rfl, rfl, -, hread⟩ := exists_of_extensions? h
    have hrow : List.Forall₂ (fun e f => e.encode.length ≤ f.encode.length) (ys.map Extension.toElement) es :=
      List.forall₂_map_left_iff.mpr (hread.imp fun _ _ h => Extension.length_encode_toElement_le h).flip
    have hparts := Element.length_node_mono (t := sequenceTag) (u := sequenceTag) (length_encodeAll_of_forall₂ hrow)
    have hfield := Element.length_node_mono (t := constructedTag 3) (u := constructedTag 3)
      (length_encodeAll_of_forall₂ (.cons hparts .nil))
    exact length_encodeAll_of_forall₂ (.cons hfield .nil)

/-- A field with another tag has no extensions. -/
theorem hasStrictExtensions_of_tag {f : Element} (h : f.tag ≠ constructedTag 3) : HasStrictExtensions f := by
  have hparts : f.parts? (constructedTag 3) = none := by
    rw [Element.parts?, Element.content?, if_neg h, Option.bind_none]
  intro xs hxs
  rw [Element.row, hparts] at hxs
  cases hxs

theorem hasStrictExtensions_extensionsField {xs : Option (List Extension)} {f : Element} (hf : f ∈ extensionsField xs)
    (h : f.Fits) : HasStrictExtensions f := by
  obtain ⟨ys, -, rfl⟩ := Option.map_eq_some_iff.mp hf
  have hrow : (Element.sequence (ys.map Extension.toElement)).Fits := h.part (List.mem_singleton.mpr rfl) rfl
  have hparts := h.parts? (List.forall_mem_singleton.mpr rfl)
  have hrows : (Element.sequence (ys.map Extension.toElement)).parts? sequenceTag
      = some (ys.map Extension.toElement) := hrow.parts?_map fun _ => rfl
  rw [HasStrictExtensions, Element.row_of_parts? hparts, List.forall_mem_singleton, Element.row_of_parts? hrows]
  intro e he
  obtain ⟨x, -, rfl⟩ := List.mem_map.mp he
  exact Extension.isStrict_toElement (hrow.part he rfl)

/-! ## Layouts -/

/-- The parts of the element of a body. The tags tell a version from a serial number. -/
structure Layout where
  version : Option Element
  serial : Element
  algorithm : Element
  issuer : Element
  validity : Element
  subject : Element
  publicKey : Element
  fields : List Element
  version_tag : ∀ f ∈ version, f.tag = constructedTag 0
  serial_tag : serial.tag = integerTag

namespace Layout

variable (l : Layout)

def required : List Element := [l.serial, l.algorithm, l.issuer, l.validity, l.subject, l.publicKey]

def parts : List Element := l.version.toList ++ (l.required ++ l.fields)

def toElement : Element := .sequence l.parts

/-- None of the liberties was taken that reading allows. -/
structure IsStrict : Prop where
  version : l.version ≠ some (.node (constructedTag 0) [.ofNat 0])
  issuer : Name.IsStrict l.issuer
  subject : Name.IsStrict l.subject
  fields : (l.fields.map Element.tag).Sublist [primitiveTag 1, primitiveTag 2, constructedTag 3]
  extensions : ∀ f ∈ l.fields, HasStrictExtensions f

end Layout

/-- The optional parts of a body, as they are found among the fields behind the public key. -/
def ReadsFields (fields : List Element) (b : CertificateBody) : Prop :=
  ∃ issuerId subjectId extensions rest rest', field? 1 fields = (issuerId, rest) ∧
    field? 2 rest = (subjectId, rest') ∧ field? 3 rest' = (extensions, []) ∧
    uniqueId? 1 issuerId = some b.issuerId ∧ uniqueId? 2 subjectId = some b.subjectId ∧
    extensions? extensions = some b.extensions

/-- A body is what is read from a layout. -/
structure Layout.Reads (l : Layout) (b : CertificateBody) : Prop where
  fits : ∀ p ∈ l.parts, p.Fits
  version : version? l.version = some b.version
  serial : SerialNumber.ofElement? l.serial = some b.serial
  algorithm : AlgorithmIdentifier.ofElement? l.algorithm = some b.algorithm
  issuer : Name.ofElement? l.issuer = some b.issuer
  validity : Validity.ofElement? l.validity = some b.validity
  subject : Name.ofElement? l.subject = some b.subject
  publicKey : PublicKeyInfo.ofElement? l.publicKey = some b.publicKey
  fields : ReadsFields l.fields b

theorem exists_layout {lenient : Bool} {e : Element} {b : CertificateBody} (h : ofElement? lenient e = some b) :
    ∃ l : Layout, e = l.toElement ∧ l.Reads b := by
  obtain ⟨es, hes, hread⟩ := Option.bind_eq_some_iff.mp h
  obtain ⟨hfits, rfl⟩ := Element.parts?_eq_some.mp hes
  rcases hversion : field? 0 es with ⟨version, parts⟩
  obtain rfl := eq_append_of_field?_zero hversion
  simp only [hversion] at hread
  split at hread
  · next serial algorithm issuer validity subject key fields =>
    rcases hissuerId : field? 1 fields with ⟨issuerId, rest⟩
    rcases hsubjectId : field? 2 rest with ⟨subjectId, rest'⟩
    rcases hextensions : field? 3 rest' with ⟨extensions, rest''⟩
    simp only [hissuerId, hsubjectId, hextensions, Option.bind_eq_bind, Option.bind_eq_some_iff] at hread
    obtain ⟨v, hv, s, hs, a, ha, i, hi, d, hd, n, hn, k, hk, i', hi', s', hs', xs, hxs, hread⟩ := hread
    split at hread
    · next hrest =>
      cases hread
      obtain rfl := hrest.1
      have htag : serial.tag = integerTag := by rw [SerialNumber.eq_toElement_of_ofElement? hs]; rfl
      exact ⟨⟨version, serial, algorithm, issuer, validity, subject, key, fields, tag_of_version? hv, htag⟩, rfl,
        ⟨hfits, hv, hs, ha, hi, hd, hn, hk, _, _, _, _, _, hissuerId, hsubjectId, hextensions, hi', hs', hxs⟩⟩
    · cases hread
  · cases hread

/-! ## What is kept of the fields -/

namespace ReadsFields

variable {fields : List Element} {b : CertificateBody}

theorem isValid (h : ReadsFields fields b) : (∀ s ∈ b.issuerId, s.IsValid) ∧ ∀ s ∈ b.subjectId, s.IsValid := by
  obtain ⟨_, _, _, _, _, -, -, -, hissuerId, hsubjectId, -⟩ := h
  exact ⟨(eq_idField_of_uniqueId? hissuerId).2, (eq_idField_of_uniqueId? hsubjectId).2⟩

/-- Fields in their order are all found, so none is lost. -/
theorem eq_optional (h : ReadsFields fields b)
    (htags : (fields.map Element.tag).Sublist [primitiveTag 1, primitiveTag 2, constructedTag 3])
    (hs : ∀ f ∈ fields, HasStrictExtensions f) : fields = b.optional := by
  obtain ⟨issuerId, subjectId, extensions, rest, rest', h1, h2, h3, hissuerId, hsubjectId, hextensions⟩ := h
  have horder : fieldNumber (primitiveTag 1) < fieldNumber (primitiveTag 2) ∧
      fieldNumber (primitiveTag 1) < fieldNumber (constructedTag 3) ∧
      fieldNumber (primitiveTag 2) < fieldNumber (constructedTag 3) := by decide
  obtain ⟨f1, r1, rfl, hf1, -, hrest⟩ := exists_field?_of_sublist htags rfl
    (List.forall_mem_cons.mpr ⟨horder.1, List.forall_mem_singleton.mpr horder.2.1⟩)
  obtain ⟨rfl, rfl⟩ := Prod.mk.inj (h1.symm.trans hf1)
  obtain ⟨f2, r2, rfl, hf2, -, hrest'⟩ := exists_field?_of_sublist hrest rfl
    (List.forall_mem_singleton.mpr horder.2.2)
  obtain ⟨rfl, rfl⟩ := Prod.mk.inj (h2.symm.trans hf2)
  obtain ⟨f3, r3, rfl, hf3, -, -⟩ := exists_field?_of_sublist hrest' rfl nofun
  obtain ⟨rfl, rfl⟩ := Prod.mk.inj (h3.symm.trans hf3)
  have hstrict : ∀ f ∈ extensions, HasStrictExtensions f := fun f hf => hs f (by simp [Option.mem_def.mp hf])
  rw [optional, ← (eq_idField_of_uniqueId? hissuerId).1, ← (eq_idField_of_uniqueId? hsubjectId).1,
    ← eq_extensionsField_of_extensions? hextensions hstrict, List.append_nil]

theorem length_optional_le (h : ReadsFields fields b) :
    (encodeAll b.optional).length ≤ (encodeAll fields).length := by
  obtain ⟨issuerId, subjectId, extensions, rest, rest', h1, h2, h3, hissuerId, hsubjectId, hextensions⟩ := h
  have hlength := length_extensionsField_le hextensions
  have hfields := length_encodeAll_of_sublist (sublist_of_field? h1)
  have hrest := length_encodeAll_of_sublist (sublist_of_field? h2)
  have hrest' := length_encodeAll_of_sublist (sublist_of_field? h3)
  rw [optional, ← (eq_idField_of_uniqueId? hissuerId).1, ← (eq_idField_of_uniqueId? hsubjectId).1]
  simp only [encodeAll, List.flatMap_append, List.length_append, List.append_nil] at *
  omega

end ReadsFields

/-! ## What is kept of a layout -/

namespace Layout.Reads

variable {l : Layout} {b : CertificateBody}

theorem isValid (h : l.Reads b) : b.IsValid where
  algorithm := (AlgorithmIdentifier.eq_toElement_of_ofElement? h.algorithm).2
  issuer := Name.isValid_of_ofElement? h.issuer
  validity := (Validity.eq_toElement_of_ofElement? h.validity).2
  subject := Name.isValid_of_ofElement? h.subject
  publicKey := (PublicKeyInfo.eq_toElement_of_ofElement? h.publicKey).2
  issuerId := h.fields.isValid.1
  subjectId := h.fields.isValid.2

/-- All required parts but the two names are read from their own elements only. -/
theorem required_eq (h : l.Reads b) : l.required = [b.serial.toElement, b.algorithm.toElement, l.issuer,
    b.validity.toElement, l.subject, b.publicKey.toElement] := by
  rw [Layout.required, SerialNumber.eq_toElement_of_ofElement? h.serial,
    (AlgorithmIdentifier.eq_toElement_of_ofElement? h.algorithm).1,
    (Validity.eq_toElement_of_ofElement? h.validity).1, (PublicKeyInfo.eq_toElement_of_ofElement? h.publicKey).1]

theorem eq_toElement (h : l.Reads b) (hs : l.IsStrict) : l.toElement = b.toElement := by
  have hversion : l.version = versionField b.version :=
    (eq_versionField_of_version? h.version).resolve_right fun hv => hs.version hv.2
  rw [Layout.toElement, parts, toElement_eq, hversion, h.required_eq, CertificateBody.required,
    Name.eq_toElement_of_ofElement? h.issuer hs.issuer, Name.eq_toElement_of_ofElement? h.subject hs.subject,
    h.fields.eq_optional hs.fields hs.extensions]

theorem length_encode_toElement_le (h : l.Reads b) :
    b.toElement.encode.length ≤ l.toElement.encode.length := by
  have hversion : (encodeAll (versionField b.version).toList).length ≤ (encodeAll l.version.toList).length := by
    rcases eq_versionField_of_version? h.version with heq | ⟨hv, -⟩
    · rw [heq]
    · rw [hv]
      exact Nat.zero_le _
  have hissuer := Name.length_encode_toElement_le h.issuer
  have hsubject := Name.length_encode_toElement_le h.subject
  have hfields := h.fields.length_optional_le
  rw [toElement_eq, Layout.toElement, parts, h.required_eq, CertificateBody.required]
  refine Element.length_node_mono ?_
  simp only [encodeAll, List.flatMap_append, List.flatMap_cons, List.flatMap_nil, List.length_append,
    List.length_nil] at *
  omega

end Layout.Reads

/-! ## What is written is strict -/

theorem versionField_ne_first (v : CertificateVersion) :
    versionField v ≠ some (.node (constructedTag 0) [.ofNat 0]) := by
  cases v <;> decide

theorem sublist_tag_of_field {field : Option Element} {t : UInt8} (h : ∀ f ∈ field, f.tag = t) :
    (field.toList.map Element.tag).Sublist [t] := by
  cases field with
  | none => exact List.nil_sublist _
  | some f => rw [Option.toList_some, List.map_singleton, h f rfl]

theorem sublist_tag_optional (b : CertificateBody) :
    (b.optional.map Element.tag).Sublist [primitiveTag 1, primitiveTag 2, constructedTag 3] := by
  rw [optional, List.map_append, List.map_append]
  exact (sublist_tag_of_field tag_idField).append
    ((sublist_tag_of_field tag_idField).append (sublist_tag_of_field tag_extensionsField))

theorem hasStrictExtensions_optional {b : CertificateBody} (h : ∀ f ∈ b.optional, f.Fits) :
    ∀ f ∈ b.optional, HasStrictExtensions f := by
  intro f hf
  have hfits := h f hf
  simp only [optional, List.mem_append, Option.mem_toList] at hf
  rcases hf with hf | hf | hf
  · exact hasStrictExtensions_of_tag (by rw [tag_idField f hf]; decide)
  · exact hasStrictExtensions_of_tag (by rw [tag_idField f hf]; decide)
  · exact hasStrictExtensions_extensionsField hf hfits

/-- A row that starts with an optional field of another tag than the part behind it is taken apart in one way only. -/
theorem field_append_inj {t : UInt8} {f g : Option Element} {e e' : Element} {es es' : List Element}
    (h : f.toList ++ e :: es = g.toList ++ e' :: es') (hf : ∀ x ∈ f, x.tag = t) (hg : ∀ x ∈ g, x.tag = t)
    (he : e.tag ≠ t) (he' : e'.tag ≠ t) : f = g ∧ e :: es = e' :: es' := by
  cases f with
  | none =>
    cases g with
    | none => exact ⟨rfl, h⟩
    | some g => exact absurd (hg e (congrArg some (List.cons.inj h).1.symm)) he
  | some f =>
    cases g with
    | none => exact absurd (hf e' (congrArg some (List.cons.inj h).1)) he'
    | some g => exact ⟨congrArg some (List.cons.inj h).1, (List.cons.inj h).2⟩

theorem Layout.isStrict_of_toElement_eq {l : Layout} {b : CertificateBody} (hl : ∀ p ∈ l.parts, p.Fits)
    (h : l.toElement = b.toElement) (hb : b.toElement.Fits) : l.IsStrict := by
  have hparts := parts?_toElement hb
  rw [← h] at hparts
  have heq : l.parts = (versionField b.version).toList ++ (b.required ++ b.optional) :=
    Option.some.inj ((Element.parts?_node hl).symm.trans hparts)
  have hserial : integerTag ≠ constructedTag 0 := by decide
  obtain ⟨hversion, hrest⟩ :=
    field_append_inj heq l.version_tag tag_versionField (l.serial_tag.trans_ne hserial) hserial
  obtain ⟨-, -, hissuer, -, hsubject, -, hfields⟩ : l.serial = b.serial.toElement ∧
      l.algorithm = b.algorithm.toElement ∧ l.issuer = b.issuer.toElement ∧ l.validity = b.validity.toElement ∧
      l.subject = b.subject.toElement ∧ l.publicKey = b.publicKey.toElement ∧ l.fields = b.optional := by
    simpa using hrest
  constructor
  case version =>
    rw [hversion]
    exact versionField_ne_first b.version
  case issuer =>
    rw [hissuer]
    exact Name.isStrict_toElement (hissuer ▸ hl l.issuer (by simp [parts, required]))
  case subject =>
    rw [hsubject]
    exact Name.isStrict_toElement (hsubject ▸ hl l.subject (by simp [parts, required]))
  case fields =>
    rw [hfields]
    exact sublist_tag_optional b
  case extensions =>
    rw [hfields]
    exact hasStrictExtensions_optional fun f hf => hl f (by simp [parts, hfields, hf])

/-- A body is written as it was received exactly when this was strict. -/
theorem Layout.Reads.toElement_eq_iff {l : Layout} {b : CertificateBody} (h : l.Reads b) (hb : b.toElement.Fits) :
    b.toElement = l.toElement ↔ l.IsStrict :=
  ⟨fun heq => isStrict_of_toElement_eq h.fits heq.symm hb, fun hs => (h.eq_toElement hs).symm⟩

end CertificateBody

end Signet
