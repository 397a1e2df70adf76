import Signet.Proofs.Certificate.Obtained

/-!
# Authorities that may not issue

Issuing asks of an authority only that its certificate says that it is one, and that the key fits. A check asks in
addition that the certificate permits what was issued. So a certificate that is issued under any authority is trusted
under it exactly when it is permitted.
-/

namespace Signet

/-! ## Trust in the issuer -/

section Issuer

variable {info : SubjectInfo} {subject signer : Key} {ca b : Bundle} {p : Profile} {now : Nat} {entropy rest : Entropy}

/-- What is equal to the certificate of its issuer is that of an authority that was issued, which permits everything. -/
theorem Issues.ne_of_not_permits (h : Issues info signer (some ca) p b) (hn : ¬ca.certificate.Permits p) :
    b.certificate ≠ ca.certificate := by
  intro heq
  have hauthority := (h.under ca rfl).2.authority
  rw [← heq, Certificate.isCa, h.describes.constraints] at hauthority
  exact hn (heq ▸ h.describes.permits hauthority p)

namespace Bundle

theorem check_of_permits (hs : signer.Made) (h : issue info subject signer (some ca) p now entropy = .ok (b, rest))
    (hca : ca.certificate.Usable now) (hp : ca.certificate.Permits p) :
    b.check [ca] [] now = .ok (ca.organization?.getD "") := by
  have hissues := issues_of_issue h
  have hlinks : Certificate.Links b.certificate ca.certificate 0 :=
    hissues.links_of_permits hs hp fun _ _ n _ => Nat.zero_le n.toNat
  have hpath : Certificate.Path (b.chain ++ [].map Bundle.certificate) now 0 (fun _ => b.certificate) 0 :=
    .single (hissues.usable (isValidAt_of_issue h))
  refine check_root_eq_ok.mpr ⟨⟨fun _ => b.certificate, 0, rfl, Nat.succ_pos _, hpath, ?_, .inr ⟨hca, hlinks⟩⟩, rfl⟩
  exact List.mem_singleton.mpr rfl

/-- Without leave to sign certificates, nothing links to an authority. -/
theorem check_of_not_maySign (h : issue info subject signer (some ca) p now entropy = .ok (b, rest))
    (hca : ca.certificate.maySign = false) : b.check [ca] [] now = .error (.untrusted b.commonName?) := by
  have hunlinked : ∀ {child below}, ¬Certificate.Links child ca.certificate below := fun hl => by
    rw [Certificate.maySign_iff.mpr hl.usage] at hca
    cases hca
  have hne : b.certificate ≠ ca.certificate := (issues_of_issue h).ne_of_not_permits fun hp => by
    rw [Certificate.maySign_iff.mpr hp.signs] at hca
    cases hca
  refine check_root_eq_error fun organization ho => ?_
  rcases (check_root_eq_ok.mp ho).1.eq_or_exists_child with heq | ⟨child, below, -, -, hl⟩
  · exact hne heq.symm
  · exact hunlinked hl

/-- An authority that carries no chain is all that a certificate issued under it carries. -/
theorem check_of_not_permits (h : issue info subject signer (some ca) p now entropy = .ok (b, rest))
    (hchain : ca.chain = []) (hp : ¬ca.certificate.Permits p) :
    b.check [ca] [] now = .error (.untrusted b.commonName?) := by
  have hissues := issues_of_issue h
  have hcarried : ∀ c ∈ b.chain, c = ca.certificate := by
    rw [(Issue.drafted_of_issue h).2.2.2, Issue.chain, hchain]
    split
    · exact List.forall_mem_nil _
    · exact fun c hc => List.mem_singleton.mp hc
  refine check_root_eq_error fun organization ho => ?_
  rcases (check_root_eq_ok.mp ho).1.eq_or_exists_child with heq | ⟨child, below, hchild, hne, hl⟩
  · exact hissues.ne_of_not_permits hp heq.symm
  · rcases hchild with rfl | hchild
    · exact hp (hissues.permits_of_links hl)
    · rw [List.map_nil, List.append_nil] at hchild
      exact hne (hcarried child hchild)

/-- What was just issued under a usable authority is trusted under it if the authority permits it. It is not trusted if
the authority may not sign certificates, and neither is anything that is not permitted under an authority alone. -/
theorem check_issuer (hs : signer.Made) (h : issue info subject signer (some ca) p now entropy = .ok (b, rest))
    (hca : ca.certificate.Usable now) :
    (ca.certificate.Permits p → b.check [ca] [] now = .ok (ca.organization?.getD "")) ∧
      (ca.certificate.maySign = false → b.check [ca] [] now = .error (.untrusted b.commonName?)) ∧
      (ca.chain = [] → ¬ca.certificate.Permits p → b.check [ca] [] now = .error (.untrusted b.commonName?)) :=
  ⟨check_of_permits hs h hca, check_of_not_maySign h, check_of_not_permits h⟩

end Bundle

end Issuer

theorem Bundle.check_issuer_sample : ∃ (ca leaf : Bundle) (entropy rest : Entropy),
    issue (sampleInfo "leaf") (sampleKey 3) (sampleKey 2) (some ca) .leaf 0 entropy = .ok (leaf, rest) ∧
      ca.certificate.Usable 0 ∧ ca.certificate.Permits .leaf ∧ leaf.check [ca] [] 0 = .ok "Org" := by
  obtain ⟨_, ca, leaf, _, _, _, e₂, e₃, _, -, hca, hleaf, -⟩ := exists_issue_sample
  have hissues := issues_of_issue hca
  have husable : ca.certificate.Usable 0 := hissues.usable (isValidAt_of_issue hca)
  have hpermits : ca.certificate.Permits .leaf := hissues.describes.permits rfl .leaf
  refine ⟨ca, leaf, e₂, e₃, hleaf, husable, hpermits, ?_⟩
  have hcheck := (check_issuer (made_sampleKey (by decide)) hleaf husable).1 hpermits
  rwa [organization?, Bundle.subject, hissues.subject, SubjectInfo.organization_of_name] at hcheck

/-! ## An authority without leave to sign certificates -/

/-- The certificate of an authority and a weakened one, which say the same apart from the key usage. -/
structure Weakened (ca weak : Bundle) : Prop where
  body : weak.certificate.body = ca.certificate.body.weaken
  chain : weak.chain = []
  valid : weak.certificate.IsValid
  extensions : ∃ (u : Der.Element) (xs : List Extension), ca.certificate.extensions = .ofContent .keyUsage true u :: xs ∧
    weak.certificate.extensions = .ofContent .keyUsage true (KeyUsage.toElement [.digitalSignature]) :: xs

namespace Weakened

variable {ca weak : Bundle}

theorem of_issue {info : SubjectInfo} {subject signer : Key} {issuer : Option Bundle} {p : Profile} {now : Nat}
    {entropy rest : Entropy} (h : issue info subject signer issuer p now entropy = .ok (ca, rest))
    (hca : ca.Writable) (hweak : Issue.unsigned ca.certificate.body.weaken = .ok weak) : Weakened ca weak := by
  obtain ⟨hdrafted, -⟩ := Issue.drafted_of_issue h
  obtain ⟨xs, hxs, hextensions⟩ := hdrafted.extensions
  obtain ⟨others, -, hform⟩ := Issue.extensionList_eq signer.suite info subject issuer p
  rw [Issue.extensions_eq_ok hxs, hform] at hextensions
  obtain ⟨hcertificate, hchain⟩ := Bundle.ofCertificate_eq_ok.mp hweak
  have hvalid := (hca ca.certificate (List.mem_cons_self ..)).valid.body
  constructor
  case body => rw [hcertificate]
  case chain => exact hchain
  case valid =>
    rw [hcertificate]
    exact ⟨{ hvalid with }, hvalid.algorithm, Der.BitString.isValid_ofBytes _⟩
  case extensions =>
    refine ⟨_, _, by rw [Certificate.extensions, hextensions, Option.getD_some], ?_⟩
    rw [hcertificate, Certificate.extensions, CertificateBody.weaken, hextensions]
    rfl

theorem sameAuthority (h : Weakened ca weak) : SameAuthority ca weak := by
  obtain ⟨u, xs, hca, hweak⟩ := h.extensions
  have hbasic : Der.Oid.keyUsage ≠ .basicConstraints := by decide
  have hid : Der.Oid.keyUsage ≠ .subjectKeyId := by decide
  exact {
    key := Bundle.key_congr (by rw [h.body]; rfl)
    subject := by rw [Bundle.subject, Bundle.subject, h.body]; rfl
    isCa := by
      rw [Certificate.isCa, Certificate.basicConstraints?, hca, Extension.find?_ofContent_of_ne hbasic,
        Certificate.isCa, Certificate.basicConstraints?, hweak, Extension.find?_ofContent_of_ne hbasic]
    keyId := by
      rw [Certificate.subjectKeyId?, hca, Extension.find?_ofContent_of_ne hid, Certificate.subjectKeyId?, hweak,
        Extension.find?_ofContent_of_ne hid] }

theorem maySign (h : Weakened ca weak) : weak.certificate.maySign = false := by
  obtain ⟨u, xs, -, hweak⟩ := h.extensions
  have hfits : (KeyUsage.toElement [.digitalSignature]).Fits := ⟨rfl, by decide⟩
  have hread : KeyUsage.ofElement? (KeyUsage.toElement [.digitalSignature]) = some [.digitalSignature] := by decide
  rw [Certificate.maySign, Certificate.keyUsage?, hweak, Extension.find?_ofContent hfits, hread]
  rfl

theorem usable (h : Weakened ca weak) {now : Int} (hca : ca.certificate.Usable now) : weak.certificate.Usable now := by
  obtain ⟨u, xs, hcaExtensions, hweak⟩ := h.extensions
  have hvalidity : weak.certificate.body.validity = ca.certificate.body.validity := by rw [h.body]; rfl
  refine ⟨hvalidity ▸ hca.started, hvalidity ▸ hca.not_ended, ?_⟩
  rw [hweak]
  refine List.forall_mem_cons.mpr ⟨fun _ => (by decide : Der.Oid.keyUsage ∈ Certificate.knownExtensions), fun x hx => ?_⟩
  exact hca.known x (by rw [hcaExtensions]; exact List.mem_cons_of_mem _ hx)

theorem ofDer_encode (h : Weakened ca weak) : Bundle.ofDer weak.certificate.encode = .ok weak := by
  rw [Bundle.ofDer_encode ⟨h.valid, weak.short⟩, ← h.chain]

end Weakened

/-- An authority that may not sign certificates issues a leaf that is not trusted under it. -/
theorem Bundle.check_issuer_weakened : ∃ (ca leaf : Bundle) (entropy rest : Entropy),
    ofDer ca.certificate.encode = .ok ca ∧ ca.certificate.Usable 0 ∧
      issue (sampleInfo "leaf") (sampleKey 3) (sampleKey 2) (some ca) .leaf 0 entropy = .ok (leaf, rest) ∧
      leaf.check [ca] [] 0 = .error (.untrusted (some "leaf")) := by
  obtain ⟨root, ca, leaf, _, weak, _, e₂, e₃, _, hroot, hca, hleaf, -, hweak⟩ := exists_issue_sample
  have hrootWritable : root.Writable := .of_issue hroot fun _ heq => nomatch heq
  have hcaWritable : ca.Writable := .of_issue hca fun _ heq => Option.some.inj heq ▸ hrootWritable
  have hweakened : Weakened ca weak := .of_issue hca hcaWritable hweak
  have husable : ca.certificate.Usable 0 := (issues_of_issue hca).usable (isValidAt_of_issue hca)
  obtain ⟨leaf', hleaf'⟩ : ∃ leaf', issue (sampleInfo "leaf") (sampleKey 3) (sampleKey 2) (some weak) .leaf 0 e₂
      = .ok (leaf', e₃) := ⟨_, Issue.issue_congr hweakened.sameAuthority hleaf⟩
  have hmem : (.commonName, "leaf") ∈ (sampleInfo "leaf").fields := by simp [SubjectInfo.fields, sampleInfo]
  have hname : leaf'.commonName? = some "leaf" := by
    rw [commonName?, Bundle.subject, (issues_of_issue hleaf').subject]
    exact Name.text?_ofTexts_of_mem (sampleInfo "leaf").nodup_fields hmem
  have hcheck := check_of_not_maySign hleaf' hweakened.maySign
  rw [hname] at hcheck
  exact ⟨weak, leaf', e₂, e₃, hweakened.ofDer_encode, hweakened.usable husable, hleaf', hcheck⟩

end Signet
