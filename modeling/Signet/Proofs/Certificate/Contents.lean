import Signet.Proofs.Certificate.Obtained
import Signet.Proofs.Key.Encoding

/-!
# What an issued certificate says when it is read

The name, the key, the serial number and the powers that a certificate was issued with are found in its written form by
whoever reads it.
-/

namespace Signet

/-! ## Serial numbers -/

namespace Issue

/-- The first byte of a serial number is not zero and does not bear the sign. -/
theorem serialByte_range (x : UInt8) : 0 < max (x &&& 0x7f) 1 ∧ max (x &&& 0x7f) 1 < 0x80 := by
  have hle : x &&& 0x7f ≤ 0x7f := by
    rw [UInt8.le_iff_toNat_le, UInt8.toNat_and]
    exact Nat.and_le_right
  have hone : (0 : UInt8) < 1 := by decide
  have hsign : (0x7f : UInt8) < 0x80 := by decide
  have hmax : max (x &&& 0x7f) 1 = if x &&& 0x7f ≤ 1 then 1 else x &&& 0x7f := rfl
  rw [hmax]
  split
  · decide
  · next hlt => exact ⟨UInt8.lt_trans hone (UInt8.not_le.mp hlt), UInt8.lt_of_le_of_lt hle hsign⟩

theorem drawSerial_eq_ok {e rest : Entropy} {s : SerialNumber} (h : drawSerial e = .ok (s, rest)) :
    ∃ x b, s.content = x :: b ∧ 0 < x ∧ x < 0x80 ∧ b.length = 15 := by
  unfold drawSerial at h
  split at h
  · cases h
  · next b e hdraw =>
    split at h
    · next s hs =>
      cases h
      have hlength := (Entropy.draw?_eq_some hdraw).1
      have hcontent := (Der.Element.mk.inj (SerialNumber.eq_toElement_of_ofElement? hs)).2
      cases b with
      | nil => cases hlength
      | cons x b =>
        obtain ⟨hpos, hlt⟩ := serialByte_range x
        exact ⟨_, b, hcontent.symm, hpos, hlt, Nat.succ.inj hlength⟩
    · cases h

end Issue

/-! ## Contents -/

/-- What a bundle says of the subject that its certificate was issued for, of the issuer, and of its own powers. -/
structure Bundle.Represents (c : Bundle) (info : SubjectInfo) (subject : Key) (issuer : Option Bundle) (p : Profile) :
    Prop where
  texts : ∀ f ∈ info.fields, c.subject.text? f.1 = if f.2 = "" then none else some f.2
  issuer : c.issuer = (issuer.map Bundle.subject).getD c.subject
  suite : c.suite = subject.suite
  point : c.key.point = subject.point
  serial : ∃ x b, c.certificate.body.serial.content = x :: b ∧ 0 < x ∧ x < 0x80 ∧ b.length = 15
  authority : c.certificate.isCa = p.isCa
  usage : c.certificate.keyUsage? = some (if p.isCa then [.digitalSignature, .keyEncipherment, .keyCertSign, .cRLSign]
    else [.digitalSignature, .keyEncipherment])
  keyId : c.certificate.subjectKeyId? = if p.isCa then some (subject.suite.hash subject.pointBytes).bytes else none

theorem Bundle.Represents.of_issue {info : SubjectInfo} {subject signer : Key} {issuer : Option Bundle} {p : Profile}
    {now : Nat} {entropy rest : Entropy} {b : Bundle} (hsubject : subject.Made)
    (h : issue info subject signer issuer p now entropy = .ok (b, rest)) : b.Represents info subject issuer p := by
  obtain ⟨hdrafted, -⟩ := Issue.drafted_of_issue h
  obtain ⟨xs, hxs, hextensions⟩ := hdrafted.extensions
  have hdescribes := Certificate.describes_of_extensions hextensions hxs
  have hkey : b.key = Key.ofPoint subject.suite subject.point := by
    have hcertified := b.certified
    rw [hdrafted.publicKey, hsubject.valid.ofPublicInfo_publicInfo, Except.ok.injEq] at hcertified
    exact hcertified.symm
  constructor
  case texts =>
    intro f hf
    rw [Bundle.subject, hdrafted.subjectName]
    exact Name.text?_ofTexts_of_mem info.nodup_fields hf
  case issuer =>
    cases issuer with
    | none =>
      rw [Bundle.issuer, Issue.issuerName_root_eq_ok hdrafted.issuerName, Bundle.subject, hdrafted.subjectName]
      rfl
    | some ca => exact (Issue.issuerName_eq_ok hdrafted.issuerName).1
  case suite => rw [Bundle.suite, hkey, Key.ofPoint]
  case point => rw [hkey, Key.ofPoint]
  case serial => exact Issue.drawSerial_eq_ok hdrafted.serial
  case authority => rw [Certificate.isCa, hdescribes.constraints]; rfl
  case usage =>
    rw [hdescribes.usage]
    cases p <;> rfl
  case keyId =>
    cases hp : p.isCa with
    | false => exact Certificate.subjectKeyId?_eq_none_of_extensions hp hextensions hxs
    | true =>
      rw [Certificate.subjectKeyId?_of_extensions hp hextensions hxs, hdrafted.suite]
      rfl

/-- The root of the sample line, which is read back with the key that it was issued for. -/
theorem exists_readable_root : ∃ root : Bundle,
    Bundle.ofPem root.toPem = .ok root ∧ root.suite = .ecdsaP256 ∧ root.key.point = (sampleKey 1).point := by
  obtain ⟨root, _, _, _, _, _, _, _, _, hroot, -⟩ := exists_issue_sample
  have hnone : ∀ ca, (none : Option Bundle) = some ca → ca.Obtained := fun _ heq => nomatch heq
  have hobtained : root.Obtained := .issued hnone hroot
  have hrepresents := Bundle.Represents.of_issue (made_sampleKey (by decide)) hroot
  exact ⟨root, root.ofPem_toPem hobtained.writable, hrepresents.suite, hrepresents.point⟩

/-- What was issued is read back from its element, and what is read says what was asked for. The authority that it was
issued under may itself have been issued or read. -/
theorem Bundle.ofDer_encode_of_issue {info : SubjectInfo} {subject signer : Key} {issuer : Option Bundle} {p : Profile}
    {now : Nat} {entropy rest : Entropy} {b : Bundle} (hsubject : subject.Made)
    (hca : ∀ ca, issuer = some ca → ca.Obtained)
    (h : issue info subject signer issuer p now entropy = .ok (b, rest)) :
    ∃ c, ofDer b.certificate.encode = .ok c ∧ c.Represents info subject issuer p := by
  have hwritable : b.Writable := (Obtained.issued hca h).writable
  have hrepresents := Represents.of_issue hsubject h
  exact ⟨{ b with chain := [] }, ofDer_encode (hwritable b.certificate (List.mem_cons_self ..)), { hrepresents with }⟩

theorem Bundle.ofDer_encode_of_issue_sample : ∃ (ca leaf c : Bundle) (entropy rest : Entropy),
    issue (sampleInfo "leaf") (sampleKey 3) (sampleKey 2) (some ca) .leaf 0 entropy = .ok (leaf, rest) ∧
      ofDer leaf.certificate.encode = .ok c ∧ c.commonName? = some "leaf" ∧ c.issuerCommonName? = some "ca" ∧
      c.certificate.isCa = false ∧ c.certificate.subjectKeyId? = none := by
  obtain ⟨root, ca, leaf, _, _, _, e₂, e₃, _, hroot, hca, hleaf, -⟩ := exists_issue_sample
  have hnone : ∀ ca, (none : Option Bundle) = some ca → ca.Obtained := fun _ heq => nomatch heq
  have hcaObtained : ca.Obtained := .issued (fun _ heq => Option.some.inj heq ▸ .issued hnone hroot) hca
  have hissuer : ∀ ca', some ca = some ca' → ca'.Obtained := fun _ heq => Option.some.inj heq ▸ hcaObtained
  obtain ⟨c, hread, hc⟩ := ofDer_encode_of_issue (made_sampleKey (by decide)) hissuer hleaf
  have hcaRepresents := Represents.of_issue (made_sampleKey (by decide)) hca
  refine ⟨ca, leaf, c, e₂, e₃, hleaf, hread, ?_, ?_, hc.authority, hc.keyId⟩
  · exact hc.texts (.commonName, "leaf") (by simp [SubjectInfo.fields, sampleInfo])
  · rw [issuerCommonName?, hc.issuer]
    exact hcaRepresents.texts (.commonName, "ca") (by simp [SubjectInfo.fields, sampleInfo])

end Signet
