import Signet.Proofs.Certificate.Obtained

/-!
# The lifetime of issued certificates

Where all else is accepted, a certificate is issued exactly if its last second is not after the year 9999. What was
issued is read back with the same first and last second, and is valid from the one to the other.
-/

namespace Signet

/-- The last second of the year 9999. -/
def DateTime.last : DateTime := ⟨9999, 12, 31, 23, 59, 59⟩

theorem DateTime.toUnix_last : DateTime.last.toUnix = maxUnix := by decide

namespace Issue

/-! ## Whole seconds -/

/-- The last second of a lifetime, computed with an unsigned product and a signed sum of 64 bits each. -/
def lastSecond? (now : Nat) (years : UInt32) : Option Nat := do
  let seconds ← within? (2 ^ 64 - 1) (years.toNat * secondsPerYear)
  within? (2 ^ 63 - 1) (now + seconds)

/-- Neither the product nor the sum is too large. -/
theorem lastSecond?_eq {now : Nat} (h : now ≤ DateTime.maxUnix) (years : UInt32) :
    lastSecond? now years = some (now + years.toNat * secondsPerYear) := by
  have hyears := years.toNat_lt
  have hsum : now + years.toNat * secondsPerYear ≤ 2 ^ 63 - 1 := by
    rw [secondsPerYear]
    rw [DateTime.maxUnix] at h
    omega
  have hproduct : years.toNat * secondsPerYear ≤ 2 ^ 64 - 1 := by omega
  rw [lastSecond?, within?_of_le hproduct, Option.bind_eq_bind, Option.bind_some, within?_of_le hsum]

/-! ## What is accepted -/

variable (info : SubjectInfo) (subject signer : Key) (issuer : Option Bundle) (p : Profile) (now : Nat)
  (entropy : Entropy)

/-- What a draft asks of everything but the time. -/
structure Admits : Prop where
  validated : info.validate = .ok ()
  isPrivate : signer.isPrivate = true
  suite : signer.suite = subject.suite
  subjectName : ∃ name, subjectName info = .ok name
  issuerName : ∃ name, issuerName info subject signer issuer p = .ok name
  extensions : ∃ xs, extensions signer.suite info subject issuer p = .ok xs
  serial : ∃ s, drawSerial entropy = .ok s

/-- What is asked of everything but the last second: in addition the key of the subject can be read, the draft can be
signed if there is one, and the certificate is not too long. -/
structure Accepts : Prop extends Admits info subject signer issuer p entropy where
  key : ∃ k, Key.ofPublicInfo (Key.publicInfo subject.suite subject.point) = .ok k
  signs : ∀ body rest, draft info subject signer issuer p now entropy = .ok (body, rest) →
    ∃ s, signer.sign body.encode = .ok s ∧
      (Certificate.mk body signer.suite.signatureAlgorithm (.ofBytes s)).encode.length ≤ Der.maxLength

variable {info subject signer issuer p now entropy} {rest : Entropy}

theorem admits_of_draft {body : CertificateBody}
    (h : draft info subject signer issuer p now entropy = .ok (body, rest)) :
    Admits info subject signer issuer p entropy := by
  simp only [draft, bind_eq_ok] at h
  obtain ⟨_, hvalidated, h⟩ := h
  split at h
  · cases h
  · next hprivate =>
    simp only [bind_eq_ok] at h
    obtain ⟨_, hsuite, name, hname, issuer, hissuer, _, -, xs, hxs, s, hserial, -⟩ := h
    exact {
      validated := hvalidated
      isPrivate := by simpa using hprivate
      suite := Suite.expect_eq_ok (ofCrypto_eq_ok.mp hsuite)
      subjectName := ⟨name, hname⟩
      issuerName := ⟨issuer, hissuer⟩
      extensions := ⟨xs, hxs⟩
      serial := ⟨s, hserial⟩ }

theorem Admits.exists_draft (h : Admits info subject signer issuer p entropy) {v : Validity}
    (hv : validity now info.years = .ok v) :
    ∃ body rest, draft info subject signer issuer p now entropy = .ok (body, rest) := by
  obtain ⟨name, hname⟩ := h.subjectName
  obtain ⟨issuerName, hissuer⟩ := h.issuerName
  obtain ⟨xs, hxs⟩ := h.extensions
  obtain ⟨⟨serial, rest⟩, hserial⟩ := h.serial
  have hsuite : CertificateError.ofCrypto (signer.suite.expect subject.suite) = .ok () :=
    ofCrypto_eq_ok.mpr (if_pos h.suite)
  simp only [draft, h.validated, h.isPrivate, hsuite, hname, hissuer, hv, hxs, hserial, Bool.true_eq_false, if_false]
  exact ⟨_, _, rfl⟩

theorem certify_of_sign {body : CertificateBody} {s : Bytes} (hsign : signer.sign body.encode = .ok s)
    (hshort : (Certificate.mk body signer.suite.signatureAlgorithm (.ofBytes s)).encode.length ≤ Der.maxLength) :
    certify signer body = .ok ⟨body, signer.suite.signatureAlgorithm, .ofBytes s⟩ := by
  have hbody : body.encode.length ≤ Der.maxLength :=
    calc body.encode.length
      _ ≤ (Certificate.mk body signer.suite.signatureAlgorithm (.ofBytes s)).toElement.content.length :=
        Der.Element.length_encode_le_of_mem (List.mem_cons_self ..)
      _ ≤ (Certificate.mk body signer.suite.signatureAlgorithm (.ofBytes s)).encode.length :=
        Der.Element.length_content_le_encode _
      _ ≤ Der.maxLength := hshort
  rw [certify, if_neg (Nat.not_lt.mpr hbody)]
  exact bind_eq_ok.mpr ⟨s, ofCrypto_eq_ok.mpr hsign, rfl⟩

/-- A certificate is issued exactly if everything else is accepted and the last moment is not too late. -/
theorem exists_issue_iff :
    (∃ b rest, issue info subject signer issuer p now entropy = .ok (b, rest)) ↔
      Accepts info subject signer issuer p now entropy ∧
        now + info.years.toNat * secondsPerYear ≤ DateTime.maxUnix := by
  constructor
  · rintro ⟨b, rest, h⟩
    obtain ⟨body, hdraft, hcertify, -⟩ := issue_eq_ok.mp h
    obtain ⟨s, hsign, hcertificate⟩ := certify_eq_ok hcertify
    have hdrafted := drafted_of_draft hdraft
    refine ⟨{ toAdmits := admits_of_draft hdraft, key := ⟨b.key, ?_⟩, signs := fun body' rest' hdraft' => ?_ },
      (validity_eq_ok.mp hdrafted.validity).1⟩
    · rw [← hdrafted.publicKey, ← b.certified, hcertificate]
    · rw [hdraft] at hdraft'
      cases hdraft'
      exact ⟨s, hsign, hcertificate ▸ b.short⟩
  · rintro ⟨h, hlast⟩
    obtain ⟨body, rest, hdraft⟩ := h.toAdmits.exists_draft (validity_eq_ok.mpr ⟨hlast, rfl⟩)
    obtain ⟨s, hsign, hshort⟩ := h.signs body rest hdraft
    obtain ⟨k, hk⟩ := h.key
    rw [← (drafted_of_draft hdraft).publicKey] at hk
    exact ⟨⟨⟨body, signer.suite.signatureAlgorithm, .ofBytes s⟩, k, chain issuer, hk, hshort⟩, rest,
      issue_eq_ok.mpr ⟨body, hdraft, certify_of_sign hsign hshort, rfl⟩⟩

end Issue

/-- Where all else is accepted, a certificate is issued exactly if its last second is not after the year 9999, and no
number on the way to this second is too large. What was issued is read back with its first and its last second, and it
is valid from the one to the other. -/
theorem issue_lifetime_exact (info : SubjectInfo) (subject signer : Key) (issuer : Option Bundle) (p : Profile)
    (now : Nat) (entropy : Entropy) :
    ((∃ b rest, issue info subject signer issuer p now entropy = .ok (b, rest)) ↔
      Issue.Accepts info subject signer issuer p now entropy ∧
        now + info.years.toNat * (365 * 86400) ≤ DateTime.last.toUnix) ∧
    (now ≤ DateTime.last.toUnix →
      Issue.lastSecond? now info.years = some (now + info.years.toNat * (365 * 86400))) ∧
    ∀ b rest, issue info subject signer issuer p now entropy = .ok (b, rest) →
      (∀ ca, issuer = some ca → ca.Obtained) →
      ∃ c, Bundle.ofDer b.certificate.encode = .ok c ∧ c.notBefore.toUnix = now ∧
        c.notAfter.toUnix = now + info.years.toNat * (365 * 86400) ∧
        ∀ t : Int, c.certificate.isValidAt t = true ↔ now ≤ t ∧ t ≤ ↑(now + info.years.toNat * (365 * 86400)) := by
  have hyear : 365 * 86400 = Issue.secondsPerYear := rfl
  rw [DateTime.toUnix_last, hyear]
  refine ⟨Issue.exists_issue_iff, fun h => Issue.lastSecond?_eq h info.years, fun b rest h hca => ?_⟩
  have hwritable : b.certificate.Writable := (Bundle.Obtained.issued hca h).writable _ (List.mem_cons_self ..)
  have hvalidity := (Issue.drafted_of_issue h).1.validity
  refine ⟨_, Bundle.ofDer_encode hwritable, ?_, ?_, Issue.contains_of_validity hvalidity⟩
  · rw [Bundle.notBefore, (Issue.validity_eq_ok.mp hvalidity).2]
    exact DateTime.toUnix_ofUnix now
  · rw [Bundle.notAfter, (Issue.validity_eq_ok.mp hvalidity).2]
    exact DateTime.toUnix_ofUnix _

/-- The sample root is issued for one year from the start of 1970 on, and is not valid after its last second. -/
theorem issue_lifetime_exact_sample : ∃ (root c : Bundle) (rest : Entropy),
    issue (sampleInfo "root") (sampleKey 1) (sampleKey 1) none .root 0 (List.replicate 48 7) = .ok (root, rest) ∧
      Issue.Accepts (sampleInfo "root") (sampleKey 1) (sampleKey 1) none .root 0 (List.replicate 48 7) ∧
      0 ≤ DateTime.last.toUnix ∧ Issue.lastSecond? 0 1 = some 31536000 ∧
      Bundle.ofDer root.certificate.encode = .ok c ∧ c.notBefore.toUnix = 0 ∧ c.notAfter.toUnix = 31536000 ∧
      c.certificate.isValidAt 31536000 = true ∧ c.certificate.isValidAt 31536001 = false := by
  obtain ⟨root, _, _, _, _, rest, _, _, _, hroot, -⟩ := exists_issue_sample
  have hnone : ∀ ca, (none : Option Bundle) = some ca → ca.Obtained := fun _ heq => nomatch heq
  have hnow : 0 ≤ DateTime.last.toUnix := Nat.zero_le _
  obtain ⟨hiff, hlast, hread⟩ :=
    issue_lifetime_exact (sampleInfo "root") (sampleKey 1) (sampleKey 1) none .root 0 (List.replicate 48 7)
  obtain ⟨c, hc, hfirst, hend, hvalid⟩ := hread root rest hroot hnone
  refine ⟨root, c, rest, hroot, (hiff.mp ⟨root, rest, hroot⟩).1, hnow, hlast hnow, hc, hfirst, hend, ?_, ?_⟩
  · exact (hvalid 31536000).mpr (by decide)
  · exact Bool.eq_false_iff.mpr fun h => absurd ((hvalid 31536001).mp h) (by decide)

end Signet
