import Signet.Proofs.Key.RichSignature
import Signet.Proofs.Key.Verification
import Signet.Proofs.Signing.Sm2

/-!
# What is signed is accepted

There are three ways to sign: with a deterministic nonce in either suite, and with random nonces for a batch. Whenever
one of them gives a signature, its numbers satisfy the equation of the suite, and so the written signature is accepted
under the key and under its public half.
-/

namespace Signet

open Curve

theorem Signing.NonceState.range_of_candidate? {a : HashAlgorithm} {n tries k : Nat} {s : NonceState}
    (h : candidate? a n tries s = some k) : 1 ≤ k ∧ k < n := by
  induction tries generalizing s with
  | zero => cases h
  | succ tries ih =>
    simp only [candidate?] at h
    split at h
    · next hk =>
      cases h
      exact hk
    · exact ih h

theorem Signing.range_of_nonce? {a : HashAlgorithm} {n d e k : Nat} (h : nonce? a n d e = some k) :
    1 ≤ k ∧ k < n :=
  NonceState.range_of_candidate? h

namespace Key

variable {k : Key} {d : Nat} {message : Bytes} {g : Signature}

theorem Valid.accepts_ecdsa (hk : k.Valid) (hs : k.suite = .ecdsaP256) (hd : k.secret = some d) {nonce r s : Nat}
    (hn : 1 ≤ nonce ∧ nonce < p256.n)
    (h : Signing.Ecdsa.sign? p256 d (digestScalar (HashAlgorithm.sha256.digest message).bytes) nonce
      (p256.mul nonce p256.base) = some (r, s)) : k.accepts message r s = true := by
  obtain ⟨suite, secret, P, pem⟩ := k
  subst hs
  have hP : ((d • generator p256 : p256.Group) : Point) = P := hk.nsmul_generator hd
  subst hP
  have hverify := Signing.Ecdsa.verify_of_sign? (by decide) h hn
  rw [accepts]
  exact hverify

theorem Valid.accepts_sm2 (hk : k.Valid) (hs : k.suite = .sm2) (hd : k.secret = some d) {nonce r s : Nat}
    (h : Signing.Sm2.sign? sm2 d (Signing.Sm2.digest sm2 k.point message) nonce = some (r, s)) :
    k.accepts message r s = true := by
  obtain ⟨suite, secret, P, pem⟩ := k
  subst hs
  have hP : ((d • generator sm2 : sm2.Group) : Point) = P := hk.nsmul_generator hd
  subst hP
  have hverify := Signing.Sm2.verify_of_sign? (by decide) h
  rw [accepts]
  exact hverify

theorem signWith_eq_ok {nonce : Option Nat} {numbers? : Nat → Option (Nat × Nat)} :
    signWith nonce numbers? = .ok g ↔ ∃ m r s, nonce = some m ∧ numbers? m = some (r, s) ∧ g = pack r s none := by
  constructor
  · intro h
    unfold signWith at h
    split at h
    · cases h
    · next m =>
      split at h
      · cases h
      · next r s hnumbers =>
        cases h
        exact ⟨m, r, s, rfl, hnumbers, rfl⟩
  · rintro ⟨m, r, s, rfl, hnumbers, rfl⟩
    simp only [signWith, hnumbers]

theorem Valid.confirms_signEcdsa (hk : k.Valid) (hs : k.suite = .ecdsaP256) (hd : k.secret = some d)
    (h : signEcdsa d message = .ok g) : k.Confirms message g := by
  obtain ⟨nonce, r, s, hnonce, hsign, rfl⟩ := signWith_eq_ok.mp h
  obtain ⟨-, hr, hs'⟩ := Signing.Ecdsa.range_of_sign? hsign
  have hacc := hk.accepts_ecdsa hs hd (Signing.range_of_nonce? hnonce) hsign
  exact confirms_pack (hs ▸ hr) (hs ▸ hs') hacc

theorem Valid.confirms_signSm2 (hk : k.Valid) (hs : k.suite = .sm2) (hd : k.secret = some d)
    (h : signSm2 d k.point message = .ok g) : k.Confirms message g := by
  obtain ⟨nonce, r, s, -, hsign, rfl⟩ := signWith_eq_ok.mp h
  obtain ⟨-, hr, hs'⟩ := Signing.Sm2.range_of_sign? hsign
  exact confirms_pack (hs ▸ hr) (hs ▸ hs') (hk.accepts_sm2 hs hd hsign)

theorem Valid.confirms_richSignature (hk : k.Valid) (hs : k.suite = .ecdsaP256) (hd : k.secret = some d)
    {entropy rest : Entropy}
    (h : richSignature d (digestScalar (HashAlgorithm.sha256.digest message).bytes) entropy = .ok (g, rest)) :
    k.Confirms message g := by
  obtain ⟨nonce, r, s, x, y, -, hnonce, hmul, hsign, rfl⟩ := richSignature_eq_ok h
  obtain ⟨-, hr, hs'⟩ := Signing.Ecdsa.range_of_sign? hsign
  rw [← hmul] at hsign
  exact confirms_pack (hs ▸ hr) (hs ▸ hs') (hk.accepts_ecdsa hs hd hnonce hsign)

/-- A signature that a key makes on its own is the written form of one that it confirms. -/
theorem Valid.confirms_of_sign (hk : k.Valid) {b : Bytes} (h : k.sign message = .ok b) :
    ∃ g, b = g.toDer ∧ k.Confirms message g := by
  unfold sign at h
  split at h
  · cases h
  · next d hd =>
    simp only at h
    split at h
    · next hs =>
      obtain ⟨g, hg, hb⟩ := bind_eq_ok.mp h
      cases hb
      exact ⟨g, rfl, hk.confirms_signEcdsa hs hd hg⟩
    · next hs =>
      obtain ⟨g, hg, hb⟩ := bind_eq_ok.mp h
      cases hb
      exact ⟨g, rfl, hk.confirms_signSm2 hs hd hg⟩

/-- So is a signature that it makes for a batch. -/
theorem Valid.confirms_of_signForBatch (hk : k.Valid) {b : Bytes} {entropy rest : Entropy}
    (h : k.signForBatch message entropy = .ok (b, rest)) : ∃ g, b = g.toDer ∧ k.Confirms message g := by
  unfold signForBatch at h
  split at h
  · next hs =>
    obtain ⟨⟨g, rest'⟩, hg, hb⟩ := bind_eq_ok.mp h
    cases hb
    unfold signRich at hg
    split at hg
    · cases hg
    · next d hd => exact ⟨g, rfl, hk.confirms_richSignature hs hd hg⟩
  · obtain ⟨b', hb', hb⟩ := bind_eq_ok.mp h
    cases hb
    exact hk.confirms_of_sign hb'

/-- What a key signs, on its own or for a batch, is accepted under the key and under its public half. -/
theorem verify_of_signs (hk : k.Made) {b : Bytes} {entropy : Entropy}
    (h : k.sign message = .ok b ∨ ∃ rest, k.signForBatch message entropy = .ok (b, rest)) :
    k.verify message b = .ok () ∧ k.publicKey.verify message b = .ok () := by
  have hconfirms : ∃ g, b = g.toDer ∧ k.Confirms message g := by
    rcases h with h | ⟨rest, h⟩
    · exact hk.valid.confirms_of_sign h
    · exact hk.valid.confirms_of_signForBatch h
  obtain ⟨g, rfl, hg⟩ := hconfirms
  have hv := hg.verify_toDer
  exact ⟨hv, (verify_congr k.publicKey_suite k.publicKey_point).trans hv⟩

theorem exists_signForBatch_one :
    ∃ b rest, (ofScalar .ecdsaP256 1).signForBatch [97] (Bytes.ofNat 32 1) = .ok (b, rest) := by
  obtain ⟨⟨b, rest⟩, hb⟩ := exists_of_isOk (x := (ofScalar .ecdsaP256 1).signForBatch [97] (Bytes.ofNat 32 1))
    (by decide +kernel)
  exact ⟨b, rest, hb⟩

/-- The message `a`, signed for a batch with the private key 1 and the nonce 1. -/
theorem verify_of_signs_one :
    ∃ b rest, (ofScalar .ecdsaP256 1).signForBatch [97] (Bytes.ofNat 32 1) = .ok (b, rest) ∧
      (ofScalar .ecdsaP256 1).verify [97] b = .ok () ∧ (ofScalar .ecdsaP256 1).publicKey.verify [97] b = .ok () := by
  have hmade := made_ofScalar .ecdsaP256 (le_refl 1) (by decide)
  obtain ⟨b, rest, hb⟩ := exists_signForBatch_one
  exact ⟨b, rest, hb, verify_of_signs hmade (.inr ⟨rest, hb⟩)⟩

end Key

end Signet
