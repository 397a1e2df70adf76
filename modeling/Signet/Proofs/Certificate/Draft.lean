import Signet.Certificate.Issue
import Signet.Proofs.Certificate.Bundle

/-!
# Certificates before they are signed

Issuing makes a body, signs it, and bundles the certificate with its key. All checks but those of the signature and of
the key come before, and all that the body takes from an authority stands in the body of the authority's certificate.
-/

namespace Signet

theorem ofCrypto_eq_ok {α : Type} {x : Except CryptoError α} {a : α} :
    CertificateError.ofCrypto x = .ok a ↔ x = .ok a := by
  cases x with
  | error e => exact ⟨nofun, nofun⟩
  | ok b => exact ⟨fun h => congrArg Except.ok (Except.ok.inj h), fun h => congrArg Except.ok (Except.ok.inj h)⟩

theorem Suite.expect_eq_ok {s t : Suite} (h : s.expect t = .ok ()) : s = t := by
  unfold expect at h
  split at h
  · next heq => exact heq
  · cases h

/-- Two bundles stand for the same authority if issuing takes the same from both. -/
structure SameAuthority (ca ca' : Bundle) : Prop where
  key : ca.key = ca'.key
  subject : ca.subject = ca'.subject
  isCa : ca.certificate.isCa = ca'.certificate.isCa
  keyId : ca.certificate.subjectKeyId? = ca'.certificate.subjectKeyId?

namespace Issue

/-- The bundle of a certificate that bears no signature yet. -/
def unsigned (body : CertificateBody) : Except CertificateError Bundle :=
  Bundle.ofCertificate ⟨body, body.algorithm, .ofBytes []⟩ []

variable {info : SubjectInfo} {subject signer : Key} {issuer : Option Bundle} {p : Profile} {now : Nat}
  {entropy rest : Entropy} {b : Bundle}

theorem subjectName_eq_ok {name : Name} (h : subjectName info = .ok name) : name = info.name := by
  simp only [subjectName] at h
  split at h
  · cases h
    rfl
  · cases h

variable (info subject signer issuer p now entropy) in
/-- What a draft consists of, with `rest` left of the random bytes, and what its keys have to be. -/
structure Drafted (rest : Entropy) (body : CertificateBody) : Prop where
  isPrivate : signer.isPrivate = true
  suite : signer.suite = subject.suite
  serial : drawSerial entropy = .ok (body.serial, rest)
  algorithm : body.algorithm = signer.suite.signatureAlgorithm
  issuerName : issuerName info subject signer issuer p = .ok body.issuer
  validity : validity now info.years = .ok body.validity
  subjectName : body.subject = info.name
  publicKey : body.publicKey = Key.publicInfo subject.suite subject.point
  noIds : body.issuerId = none ∧ body.subjectId = none
  extensions : ∃ xs, extensions signer.suite info subject issuer p = .ok xs ∧ body.extensions = some xs

theorem drafted_of_draft {body : CertificateBody} (h : draft info subject signer issuer p now entropy = .ok (body, rest)) :
    Drafted info subject signer issuer p now entropy rest body := by
  simp only [draft, bind_eq_ok] at h
  obtain ⟨-, -, h⟩ := h
  split at h
  · cases h
  · next hprivate =>
    simp only [bind_eq_ok, pure_eq_ok] at h
    obtain ⟨_, hsuite, _, hsubject, name, hname, v, hv, xs, hxs, ⟨serial, entropy'⟩, hserial, h⟩ := h
    cases h
    exact {
      isPrivate := by simpa using hprivate
      suite := Suite.expect_eq_ok (ofCrypto_eq_ok.mp hsuite)
      serial := hserial
      algorithm := rfl
      issuerName := hname
      validity := hv
      subjectName := subjectName_eq_ok hsubject
      publicKey := rfl
      noIds := ⟨rfl, rfl⟩
      extensions := ⟨xs, hxs, rfl⟩ }

theorem issue_eq_ok :
    issue info subject signer issuer p now entropy = .ok (b, rest) ↔
      ∃ body, draft info subject signer issuer p now entropy = .ok (body, rest) ∧
        certify signer body = .ok b.certificate ∧ b.chain = chain issuer := by
  simp only [issue, bind_eq_ok, pure_eq_ok, Bundle.ofCertificate_eq_ok]
  constructor
  · rintro ⟨⟨body, rest'⟩, hdraft, c, hcertify, b', ⟨rfl, hchain⟩, h⟩
    cases h
    exact ⟨body, hdraft, hcertify, hchain⟩
  · rintro ⟨body, hdraft, hcertify, hchain⟩
    exact ⟨(body, rest), hdraft, _, hcertify, b, ⟨rfl, hchain⟩, rfl⟩

theorem certify_eq_ok {body : CertificateBody} {c : Certificate} (h : certify signer body = .ok c) :
    ∃ signature, signer.sign body.encode = .ok signature ∧
      c = ⟨body, signer.suite.signatureAlgorithm, .ofBytes signature⟩ := by
  simp only [certify] at h
  split at h
  · cases h
  · simp only [bind_eq_ok, pure_eq_ok, ofCrypto_eq_ok] at h
    obtain ⟨signature, hsign, rfl⟩ := h
    exact ⟨signature, hsign, rfl⟩

/-- What a certificate that was issued consists of. -/
theorem drafted_of_issue (h : issue info subject signer issuer p now entropy = .ok (b, rest)) :
    Drafted info subject signer issuer p now entropy rest b.certificate.body ∧
      b.certificate.algorithm = signer.suite.signatureAlgorithm ∧
      (∃ signature, signer.sign b.certificate.body.encode = .ok signature ∧
        b.certificate.signature = .ofBytes signature) ∧ b.chain = chain issuer := by
  obtain ⟨body, hdraft, hcertify, hchain⟩ := issue_eq_ok.mp h
  obtain ⟨signature, hsign, hcertificate⟩ := certify_eq_ok hcertify
  rw [hcertificate]
  exact ⟨drafted_of_draft hdraft, rfl, ⟨signature, hsign, rfl⟩, hchain⟩

theorem draft_congr {ca ca' : Bundle} (h : SameAuthority ca ca') :
    draft info subject signer (some ca) p now entropy = draft info subject signer (some ca') p now entropy := by
  have hsuite : ca.suite = ca'.suite := by rw [Bundle.suite, h.key, Bundle.suite]
  have hcommonName : ca.commonName? = ca'.commonName? := by rw [Bundle.commonName?, h.subject, Bundle.commonName?]
  have hname : issuerName info subject signer (some ca) p = issuerName info subject signer (some ca') p := by
    cases p with
    | root => rfl
    | intermediate | leaf => simp only [issuerName, hsuite, h.isCa, hcommonName, h.key, h.subject]
  have hlist : extensionList signer.suite info subject (some ca) p
      = extensionList signer.suite info subject (some ca') p := by
    simp only [extensionList, Option.bind_some, h.keyId]
  rw [draft, draft, hname, extensions, hlist, extensions]

/-- What is issued under one of two bundles for the same authority differs in what it carries only. -/
theorem issue_congr {ca ca' : Bundle} (h : SameAuthority ca ca')
    (hb : issue info subject signer (some ca) p now entropy = .ok (b, rest)) :
    issue info subject signer (some ca') p now entropy = .ok ({ b with chain := chain (some ca') }, rest) := by
  obtain ⟨body, hdraft, hcertify, -⟩ := issue_eq_ok.mp hb
  rw [draft_congr h] at hdraft
  exact issue_eq_ok.mpr ⟨body, hdraft, hcertify, rfl⟩

end Issue

end Signet
