import Signet.Certificate.Authority
import Signet.Proofs.Certificate.Contents
import Signet.Proofs.Key.Text

/-!
# Suites do not mix

What is read for one suite is refused for the other one, and nothing is issued unless the keys and the authority that
take part belong to one suite. An authority of a suite refuses all others before it issues anything.
-/

namespace Signet

theorem Suite.expect_of_ne {s t : Suite} (h : t ≠ s) : s.expect t = .error (.suiteMismatch s t) := if_neg h.symm

/-- What is reached behind a check of the suite that was found is not reached with the other suite. -/
theorem Suite.expect_bind_of_ne {α β : Type} {s t : Suite} {found? : Except CryptoError Suite}
    {next : Suite → Except CryptoError α} {next' : Suite → Except CryptoError β} {a : α}
    (h : (found? >>= fun found => s.expect found >>= fun _ => next found) = .ok a) (hne : t ≠ s) :
    (found? >>= fun found => t.expect found >>= fun _ => next' found) = .error (.suiteMismatch t s) := by
  obtain ⟨found, hfound, hnext⟩ := bind_eq_ok.mp h
  obtain ⟨_, hexpect, -⟩ := bind_eq_ok.mp hnext
  obtain rfl := expect_eq_ok hexpect
  exact bind_eq_error.mpr (.inr ⟨s, hfound, bind_eq_error.mpr (.inl (expect_of_ne hne.symm))⟩)

/-! ## Keys -/

namespace Key

variable {s t : Suite} {k : Key}

theorem ofPrivateBlock_of_ne {b pem : Bytes} (h : ofPrivateBlock s b pem = .ok k) (hne : t ≠ s) :
    ofPrivateBlock t b pem = .error (.suiteMismatch t s) := by
  unfold ofPrivateBlock at h ⊢
  cases hinfo : PrivateKeyInfo.decode? b with
  | none =>
    rw [hinfo] at h
    cases h
  | some info =>
    rw [hinfo] at h
    exact Suite.expect_bind_of_ne h hne

theorem ofPublicBlock_of_ne {b pem : Bytes} (h : ofPublicBlock s b pem = .ok k) (hne : t ≠ s) :
    ofPublicBlock t b pem = .error (.suiteMismatch t s) := by
  unfold ofPublicBlock at h ⊢
  cases hinfo : Der.PublicKeyInfo.decode? b with
  | none =>
    rw [hinfo] at h
    cases h
  | some info =>
    rw [hinfo] at h
    exact Suite.expect_bind_of_ne h hne

theorem ofPem_of_ne {b : Bytes} (h : ofPem s b = .ok k) (hne : t ≠ s) : ofPem t b = .error (.suiteMismatch t s) := by
  obtain ⟨text, block, htext, hblock, h⟩ := exists_of_ofPem h
  rw [ofPem_of_decode? htext hblock, ofBlock]
  rcases ofBlock_eq_ok.mp h with ⟨hprivate, h⟩ | ⟨hpublic, h⟩
  · rw [if_pos hprivate]
    exact ofPrivateBlock_of_ne h hne
  · rw [hpublic, if_neg publicLabel_ne, if_pos rfl]
    exact ofPublicBlock_of_ne h hne

end Key

/-! ## Certificates -/

/-- The suite of an authority refuses another one. -/
def Suite.Refuses {α : Type} (s : Suite) (x : Except CertificateError α) : Prop :=
  ∃ t, t ≠ s ∧ x = .error (.crypto (.suiteMismatch s t))

/-- Both keys and the authority, if there is one, belong to the suite. -/
structure Suite.Covers (s : Suite) (subject signer : Key) (issuer : Option Bundle) : Prop where
  subject : subject.suite = s
  signer : signer.suite = s
  issuer : ∀ ca, issuer = some ca → ca.suite = s

namespace Suite

variable {s t : Suite} {info : SubjectInfo} {subject signer key : Key} {ca c : Bundle} {issuer : Option Bundle}
  {p : Profile} {now : Nat} {entropy : Entropy} {b : Bytes}

theorem ofCrypto_expect_of_ne (h : t ≠ s) :
    CertificateError.ofCrypto (s.expect t) = .error (.crypto (.suiteMismatch s t)) := by
  rw [expect_of_ne h]
  rfl

theorem ofCrypto_expect_self : CertificateError.ofCrypto (s.expect s) = .ok () := by
  rw [expect, if_pos rfl]
  rfl

theorem refuses_of_ne (h : t ≠ s) : s.Refuses (CertificateError.ofCrypto (s.expect t)) :=
  ⟨t, h, ofCrypto_expect_of_ne h⟩

theorem Refuses.bind {α β : Type} {x : Except CertificateError α} (h : s.Refuses x)
    (f : α → Except CertificateError β) : s.Refuses (x >>= f) := by
  obtain ⟨t, hne, hx⟩ := h
  exact ⟨t, hne, bind_eq_error.mpr (.inl hx)⟩

theorem readBundle_eq_ok : s.readBundle b = .ok c ↔ Bundle.ofPem b = .ok c ∧ c.suite = s := by
  simp only [readBundle, bind_eq_ok, pure_eq_ok, ofCrypto_eq_ok]
  constructor
  · rintro ⟨c, hc, _, hexpect, rfl⟩
    exact ⟨hc, (expect_eq_ok hexpect).symm⟩
  · rintro ⟨hc, rfl⟩
    exact ⟨c, hc, (), if_pos rfl, rfl⟩

/-- A certificate of another suite is refused under the name of its suite. -/
theorem readBundle_of_ne (h : Bundle.ofPem b = .ok c) (hne : c.suite ≠ s) :
    s.readBundle b = .error (.crypto (.suiteMismatch s c.suite)) := by
  have hexpect := ofCrypto_expect_of_ne hne
  exact bind_eq_error.mpr (.inr ⟨c, h, bind_eq_error.mpr (.inl hexpect)⟩)

theorem expectAll_of_not_covers (h : ¬s.Covers subject signer (some ca)) : s.Refuses (s.expectAll subject signer ca) := by
  unfold expectAll
  by_cases hsubject : subject.suite = s
  · by_cases hsigner : signer.suite = s
    · have hca : ca.suite ≠ s := by
        intro hca
        exact h ⟨hsubject, hsigner, fun _ heq => Option.some.inj heq ▸ hca⟩
      rw [hsubject, hsigner, ofCrypto_expect_self]
      exact refuses_of_ne hca
    · rw [hsubject, ofCrypto_expect_self]
      exact (refuses_of_ne hsigner).bind _
  · exact (refuses_of_ne hsubject).bind _

/-- Only what belongs to one suite takes part in issuing a certificate. -/
theorem covers_of_issue {result : Bundle × Entropy}
    (h : issue info subject signer issuer p now entropy = .ok result) : signer.suite.Covers subject signer issuer := by
  obtain ⟨hdrafted, -⟩ := Issue.drafted_of_issue h
  constructor
  case subject => exact hdrafted.suite.symm
  case signer => rfl
  case issuer =>
    rintro ca rfl
    obtain ⟨-, hempowers⟩ := Issue.issuerName_eq_ok hdrafted.issuerName
    exact hempowers.suite.symm

theorem exists_error_of_not_covers (h : ∀ s : Suite, ¬s.Covers subject signer issuer) :
    ∃ e, issue info subject signer issuer p now entropy = .error e := by
  cases hissue : issue info subject signer issuer p now entropy with
  | error e => exact ⟨e, rfl⟩
  | ok result => exact absurd (covers_of_issue hissue) (h _)

/-- Suites never mix: what is read for one suite is refused for the other, no certificate is issued with keys and an
authority of different suites, and the authorities of a suite refuse those of the other. -/
theorem never_mixed :
    (∀ (s t : Suite) (b : Bytes), t ≠ s →
      (∀ k, Key.ofPem s b = .ok k → Key.ofPem t b = .error (.suiteMismatch t s)) ∧
      ∀ c, s.readBundle b = .ok c → t.readBundle b = .error (.crypto (.suiteMismatch t s))) ∧
    (∀ info subject signer issuer p now entropy, (∀ s : Suite, ¬s.Covers subject signer issuer) →
      ∃ e, issue info subject signer issuer p now entropy = .error e) ∧
    ∀ s : Suite,
      (∀ b c, Bundle.ofPem b = .ok c → c.suite ≠ s → s.Refuses (s.readBundle b)) ∧
      (∀ info key now entropy, ¬s.Covers key key none → s.Refuses (s.issueRoot info key now entropy)) ∧
      ∀ info subject signer ca now entropy, ¬s.Covers subject signer (some ca) →
        s.Refuses (s.issueIntermediate info subject signer ca now entropy) ∧
          s.Refuses (s.issueLeaf info subject signer ca now entropy) := by
  refine ⟨?read, fun _ _ _ _ _ _ _ => exists_error_of_not_covers, fun s => ⟨?other, ?root, ?below⟩⟩
  case read =>
    intro s t b hne
    refine ⟨fun k hk => Key.ofPem_of_ne hk hne, fun c hc => ?_⟩
    obtain ⟨hread, rfl⟩ := readBundle_eq_ok.mp hc
    exact readBundle_of_ne hread hne.symm
  case other =>
    intro b c hc hne
    exact ⟨c.suite, hne, readBundle_of_ne hc hne⟩
  case root =>
    intro info key now entropy h
    have hne : key.suite ≠ s := fun hs => h ⟨hs, hs, fun _ heq => nomatch heq⟩
    rw [issueRoot]
    exact (refuses_of_ne hne).bind _
  case below =>
    intro info subject signer ca now entropy h
    rw [issueIntermediate, issueLeaf]
    exact ⟨(expectAll_of_not_covers h).bind _, (expectAll_of_not_covers h).bind _⟩

/-- The private key 1 of SM2, and the root of the sample line, which belongs to ECDSA. -/
theorem never_mixed_sample : ∃ root : Bundle,
    Key.ofPem .sm2 (Key.ofScalar .sm2 1).text = .ok (.ofScalar .sm2 1) ∧
      Key.ofPem .ecdsaP256 (Key.ofScalar .sm2 1).text = .error (.suiteMismatch .ecdsaP256 .sm2) ∧
      ecdsaP256.readBundle root.toPem = .ok root ∧
      sm2.readBundle root.toPem = .error (.crypto (.suiteMismatch .sm2 .ecdsaP256)) ∧
      (∃ e, issue (sampleInfo "leaf") (.ofScalar .sm2 1) (sampleKey 1) (some root) .leaf 0 [] = .error e) ∧
      sm2.Refuses (sm2.readBundle root.toPem) ∧ sm2.Refuses (sm2.issueRoot (sampleInfo "root") (sampleKey 1) 0 []) ∧
      sm2.Refuses (sm2.issueLeaf (sampleInfo "leaf") (.ofScalar .sm2 1) (.ofScalar .sm2 1) root 0 []) := by
  obtain ⟨root, hroot, hsuite, -⟩ := exists_readable_root
  obtain ⟨hread, hissue, hauthority⟩ := never_mixed
  obtain ⟨hother, hself, hbelow⟩ := hauthority .sm2
  have hkey : Key.ofPem .sm2 (Key.ofScalar .sm2 1).text = .ok (.ofScalar .sm2 1) :=
    (Key.made_ofScalar .sm2 (by decide) (by decide)).valid.ofPem_text
  have hbundle : ecdsaP256.readBundle root.toPem = .ok root := readBundle_eq_ok.mpr ⟨hroot, hsuite⟩
  have hne : root.suite ≠ .sm2 := hsuite ▸ by decide
  have hmixed : ∀ s : Suite, ¬s.Covers (.ofScalar .sm2 1) (sampleKey 1) (some root) :=
    fun s h => absurd (h.subject.trans h.signer.symm) (by decide)
  refine ⟨root, hkey, (hread .sm2 .ecdsaP256 _ (by decide)).1 _ hkey, hbundle,
    (hread .ecdsaP256 .sm2 _ (by decide)).2 _ hbundle, hissue _ _ _ _ _ _ _ hmixed, hother _ _ hroot hne, ?_, ?_⟩
  · exact hself _ _ _ _ fun h => absurd h.signer (by decide)
  · exact (hbelow _ _ _ _ _ _ fun h => hne (h.issuer root rfl)).2

end Suite

end Signet
