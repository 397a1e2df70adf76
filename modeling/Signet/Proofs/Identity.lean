import Signet.Identity
import Signet.Proofs.Certificate.Separation

/-!
# Identities sign for their certificates

The key and the certificate of an identity are read apart from each other, and an identity is made of them only if the
key is private and has the point that is certified. So its certificate accepts whatever it signs.
-/

namespace Signet.Identity

variable {algorithm : String} {certificate key message b : Bytes} {entropy : Entropy} {s : Suite} {c : Bundle} {k : Key}
  {i : Identity}

variable (algorithm certificate key i) in
/-- The parts of an identity are read from a name and two texts, and the key is private and certified. -/
structure IsMadeOf : Prop where
  suite : Suite.parse algorithm = .ok i.suite
  bundle : i.suite.readBundle certificate = .ok i.bundle
  key : Key.ofPem i.suite key = .ok i.key
  isPrivate : i.key.isPrivate = true
  certified : i.key.point = i.bundle.key.point

theorem samePublic_iff (hc : s.readBundle certificate = .ok c) (hk : Key.ofPem s key = .ok k) :
    k.samePublic c.key = true ↔ k.point = c.key.point := by
  have hsuite : k.suite = c.key.suite := (Key.suite_of_ofPem hk).trans (Suite.readBundle_eq_ok.mp hc).2.symm
  exact (Key.Made.ofPem hk).valid.samePublic_iff (Key.valid_of_ofPublicInfo c.certified) hsuite

theorem ofPem_eq_ok : ofPem algorithm certificate key = .ok i ↔ IsMadeOf algorithm certificate key i := by
  simp only [ofPem, bind_eq_ok, ofCrypto_eq_ok]
  constructor
  · rintro ⟨s, hs, c, hc, k, hk, h⟩
    split at h
    · cases h
    · next hprivate =>
      split at h
      · next hsame =>
        cases h
        exact ⟨hs, hc, hk, by simpa using hprivate, (samePublic_iff hc hk).mp hsame⟩
      · cases h
  · rintro ⟨hs, hc, hk, hprivate, hcertified⟩
    have hsame := (samePublic_iff hc hk).mpr hcertified
    exact ⟨_, hs, _, hc, _, hk, by simp only [hprivate, hsame]; rfl⟩

/-- Loading fails, where nothing that is read is at fault, exactly if the key is public or not the certified one. -/
theorem exists_error_iff (hs : Suite.parse algorithm = .ok s) (hc : s.readBundle certificate = .ok c)
    (hk : Key.ofPem s key = .ok k) :
    (∃ e, ofPem algorithm certificate key = .error e) ↔ k.isPrivate = false ∨ k.point ≠ c.key.point := by
  constructor
  · rintro ⟨e, he⟩
    by_contra h
    obtain ⟨hprivate, hpoint⟩ := not_or.mp h
    have hmade : IsMadeOf algorithm certificate key ⟨s, k, c⟩ :=
      ⟨hs, hc, hk, Bool.eq_true_of_not_eq_false hprivate, not_not.mp hpoint⟩
    rw [ofPem_eq_ok.mpr hmade] at he
    cases he
  · intro h
    cases hi : ofPem algorithm certificate key with
    | error e => exact ⟨e, rfl⟩
    | ok i =>
      obtain ⟨hs', hc', hk', hprivate, hcertified⟩ := ofPem_eq_ok.mp hi
      obtain rfl := Except.ok.inj (hs.symm.trans hs')
      obtain rfl := Except.ok.inj (hc.symm.trans hc')
      obtain rfl := Except.ok.inj (hk.symm.trans hk')
      rw [hprivate] at h
      exact absurd hcertified (h.resolve_left Bool.noConfusion)

/-- The certificate accepts what the key confirms. -/
theorem IsMadeOf.verify (h : IsMadeOf algorithm certificate key i) {g : Signature} (hg : i.key.Confirms message g) :
    i.bundle.verify message g.toDer = .ok () := by
  have hsuite : i.bundle.key.suite = i.key.suite :=
    (Suite.readBundle_eq_ok.mp h.bundle).2.trans (Key.suite_of_ofPem h.key).symm
  rw [Bundle.verify, Key.verify_congr hsuite h.certified.symm, hg.verify_toDer]
  rfl

/-- An identity signs for its certificate only, and nothing but a public key or a point that is not certified is in the
way of loading what can be read. -/
theorem signs_for_certificate (algorithm : String) (certificate key : Bytes) :
    (∀ i, ofPem algorithm certificate key = .ok i → ∀ message entropy b,
      (i.sign message = .ok b ∨ ∃ rest, i.signForBatch message entropy = .ok (b, rest)) →
        i.bundle.verify message b = .ok ()) ∧
    ∀ s c k, Suite.parse algorithm = .ok s → s.readBundle certificate = .ok c → Key.ofPem s key = .ok k →
      ((∃ e, ofPem algorithm certificate key = .error e) ↔ k.isPrivate = false ∨ k.point ≠ c.key.point) := by
  refine ⟨?_, fun _ _ _ hs hc hk => exists_error_iff hs hc hk⟩
  intro i hi message entropy b hb
  have hmade := ofPem_eq_ok.mp hi
  have hvalid := (Key.Made.ofPem hmade.key).valid
  rcases hb with hb | ⟨rest, hb⟩
  · obtain ⟨g, rfl, hg⟩ := hvalid.confirms_of_sign (ofCrypto_eq_ok.mp hb)
    exact hmade.verify hg
  · obtain ⟨g, rfl, hg⟩ := hvalid.confirms_of_signForBatch (ofCrypto_eq_ok.mp hb)
    exact hmade.verify hg

/-- The root of the sample line with its own key, and with a key that it does not certify. -/
theorem signs_for_certificate_sample : ∃ (root : Bundle) (i : Identity) (b : Bytes) (rest : Entropy),
    ofPem "ecdsa_with_sha256" root.toPem (sampleKey 1).text = .ok i ∧
      i.signForBatch [97] (Bytes.ofNat 32 1) = .ok (b, rest) ∧ i.bundle.verify [97] b = .ok () ∧
      ∃ e, ofPem "ecdsa_with_sha256" root.toPem (sampleKey 2).text = .error e := by
  obtain ⟨root, hroot, hsuite, hpoint⟩ := exists_readable_root
  have hs : Suite.parse "ecdsa_with_sha256" = .ok .ecdsaP256 := by decide +kernel
  have hc : Suite.ecdsaP256.readBundle root.toPem = .ok root := Suite.readBundle_eq_ok.mpr ⟨hroot, hsuite⟩
  have hk (d : Nat) (hd : 1 ≤ d ∧ d < Curve.p256.n) : Key.ofPem .ecdsaP256 (sampleKey d).text = .ok (sampleKey d) :=
    (made_sampleKey hd).valid.ofPem_text
  have hi : ofPem "ecdsa_with_sha256" root.toPem (sampleKey 1).text = .ok ⟨.ecdsaP256, sampleKey 1, root⟩ :=
    ofPem_eq_ok.mpr ⟨hs, hc, hk 1 (by decide), rfl, hpoint.symm⟩
  obtain ⟨b, rest, hb⟩ := Key.exists_signForBatch_one
  have hsigned := ofCrypto_eq_ok.mpr hb
  have hne : (sampleKey 2).point ≠ root.key.point := hpoint ▸ by decide +kernel
  exact ⟨root, _, b, rest, hi, hsigned,
    (signs_for_certificate _ _ _).1 _ hi [97] (Bytes.ofNat 32 1) b (.inr ⟨rest, hsigned⟩),
    ((signs_for_certificate _ _ _).2 _ _ _ hs hc (hk 2 (by decide))).mpr (.inr hne)⟩

end Signet.Identity
