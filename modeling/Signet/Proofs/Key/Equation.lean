import Signet.Proofs.Key.Signing

/-!
# Verification decides the equation of the suite

What is verified is a pair of numbers: a byte string has to be the strict DER of two or of four integers, of which only
the first two count. They are accepted exactly if they are residues other than 0 that solve the equation of the suite in
the group of the curve.
-/

namespace Signet

/-- The strict DER of a sequence of the integers `r` and `s`, alone or with two more, none of which takes more than 32
bytes. -/
structure Signature.IsWritten (r s : Nat) (more : List Nat) (b : Bytes) : Prop where
  length : more.length = 0 ∨ more.length = 2
  lt : ∀ n ∈ r :: s :: more, n < 2 ^ 256
  strict : Der.IsNaturalSequence (r :: s :: more) b

namespace Signature

variable {r s : Nat} {more : List Nat} {b : Bytes}

theorem exists_numbers_cons (g : Signature) : ∃ more, g.numbers = g.r.val :: g.s.val :: more := by
  obtain ⟨r, s, _ | ⟨x, y⟩⟩ := g
  · exact ⟨[], rfl⟩
  · exact ⟨[x.val, y.val], rfl⟩

theorem isWritten_iff : IsWritten r s more b ↔ ∃ g : Signature, g.numbers = r :: s :: more ∧ ofDer b = .ok g := by
  have hcount : (more.length = 0 ∨ more.length = 2) ↔ (more.length + 1 + 1 = 2 ∨ more.length + 1 + 1 = 4) := by omega
  simp only [ofDer_eq_ok, toDer_iff, List.length_cons]
  constructor
  · intro h
    exact ⟨hcount.mp h.length, h.lt, h.strict⟩
  · rintro ⟨hlength, hlt, hstrict⟩
    exact ⟨hcount.mpr hlength, hlt, hstrict⟩

/-- The first two integers are those of the signature that is read. -/
theorem IsWritten.exists_ofDer (h : IsWritten r s more b) :
    ∃ g : Signature, ofDer b = .ok g ∧ g.r.val = r ∧ g.s.val = s := by
  obtain ⟨g, hnumbers, hg⟩ := isWritten_iff.mp h
  obtain ⟨_, hcons⟩ := g.exists_numbers_cons
  rw [hcons] at hnumbers
  injection hnumbers with hr hnumbers
  injection hnumbers with hs
  exact ⟨g, hg, hr, hs⟩

theorem exists_isWritten {g : Signature} (h : ofDer b = .ok g) : ∃ more, IsWritten g.r.val g.s.val more b := by
  obtain ⟨more, hcons⟩ := g.exists_numbers_cons
  exact ⟨more, isWritten_iff.mpr ⟨g, hcons, h⟩⟩

/-- Four integers are the strict DER of a rich signature. -/
theorem isWritten_rich_iff {r s x y : Nat} {b : Bytes} :
    IsWritten r s [x, y] b ↔
      ∃ r' s' x' y' : Word256, ofRichDer b = .ok ⟨r', s', some (x', y')⟩ ∧
        r = r'.val ∧ s = s'.val ∧ x = x'.val ∧ y = y'.val := by
  rw [isWritten_iff]
  constructor
  · rintro ⟨⟨r', s', carried⟩, hnumbers, hread⟩
    cases carried with
    | none => cases hnumbers
    | some point =>
      obtain ⟨x', y'⟩ := point
      cases hnumbers
      rw [← ofDer_eq_ok.mp hread]
      exact ⟨r', s', x', y', ofRichDer_toDer r' s' x' y', rfl, rfl, rfl, rfl⟩
  · rintro ⟨r', s', x', y', hread, rfl, rfl, rfl, rfl⟩
    exact ⟨_, rfl, ofDer_of_ofRichDer hread⟩

end Signature

/-! ## The equations -/

/-- The equation of a suite for the public key `Q`. In SM2 the message stands behind a digest of the signer. -/
def Suite.Equation (u : Suite) (Q : u.curve.Group) (message : Bytes) (r s : Nat) : Prop :=
  match u, Q with
  | .ecdsaP256, Q =>
    Signing.Ecdsa.Equation (C := .p256) Q (Bytes.toNat (HashAlgorithm.sha256.digest message).bytes) r s
  | .sm2, Q =>
    let signed := Signing.Sm2.signerDigest .sm2 Q ++ message
    Signing.Sm2.Equation (C := .sm2) Q (Bytes.toNat (HashAlgorithm.sm3.digest signed).bytes) r s

namespace Key

variable {k : Key} {message b : Bytes} {r s : Nat} {g : Signature}

theorem Valid.accepts_iff (h : k.Valid) :
    k.accepts message r s = true ↔ k.suite.Equation ⟨k.point, h.lies⟩ message r s := by
  obtain ⟨suite, secret, P, pem⟩ := k
  cases suite with
  | ecdsaP256 =>
    -- The digest has 32 bytes, so that all of it counts.
    exact Signing.Ecdsa.verify_mod_iff (by decide) (⟨P, h.lies⟩ : Curve.p256.Group) _ r s
  | sm2 => exact Signing.Sm2.verify_mod_iff (⟨P, h.lies⟩ : Curve.sm2.Group) _ r s

theorem verify_of_isWritten {more : List Nat} (h : Signature.IsWritten r s more b) :
    k.verify message b = k.verdict message r s := by
  obtain ⟨g, hg, rfl, rfl⟩ := h.exists_ofDer
  exact verify_of_ofDer hg

/-- A signature is accepted exactly if it is the strict DER of two or of four integers of which the first two are
residues other than 0 that solve the equation of the suite. The other two do not count. -/
theorem verify_exact {k : Key} (hk : k.Made) (message b : Bytes) :
    (k.verify message b = .ok () ↔
      ∃ r s more, Signature.IsWritten r s more b ∧ (k.suite.curve.InRange r ∧ k.suite.curve.InRange s) ∧
        k.suite.Equation ⟨k.point, hk.valid.lies⟩ message r s) ∧
      (∀ r s more, Signature.IsWritten r s more b → ¬(k.suite.curve.InRange r ∧ k.suite.curve.InRange s) →
        k.verify message b = .error .scalarOutOfRange) ∧
      ∀ r s more more' b', Signature.IsWritten r s more b → Signature.IsWritten r s more' b' →
        k.verify message b' = k.verify message b := by
  refine ⟨⟨?_, ?_⟩, ?_, ?_⟩
  · intro h
    obtain ⟨g, hg, -⟩ := bind_eq_ok.mp h
    obtain ⟨more, hmore⟩ := Signature.exists_isWritten hg
    rw [verify_of_isWritten hmore, verdict_eq_ok, hk.valid.accepts_iff] at h
    exact ⟨g.r, g.s, more, hmore, h⟩
  · rintro ⟨r, s, more, hmore, h⟩
    rw [verify_of_isWritten hmore, verdict_eq_ok, hk.valid.accepts_iff]
    exact h
  · intro r s more hmore hrange
    rw [verify_of_isWritten hmore, verdict, if_neg hrange]
  · intro r s more more' b' hmore hmore'
    rw [verify_of_isWritten hmore', verify_of_isWritten hmore]

/-- The message `a`, signed for a batch with the private key 1 and the nonce 1: the signature solves the equation, and
it is accepted without the point that it carries too. -/
theorem verify_exact_one :
    ∃ (h : (ofScalar .ecdsaP256 1).Made) (r s : Nat) (more : List Nat) (b b' : Bytes),
      Signature.IsWritten r s more b ∧ Signature.IsWritten r s [] b' ∧
        Suite.ecdsaP256.Equation ⟨(ofScalar .ecdsaP256 1).point, h.valid.lies⟩ [97] r s ∧
        (ofScalar .ecdsaP256 1).verify [97] b = .ok () ∧ (ofScalar .ecdsaP256 1).verify [97] b' = .ok () := by
  have hmade := made_ofScalar .ecdsaP256 (le_refl 1) (by decide)
  obtain ⟨b, rest, hb⟩ := exists_signForBatch_one
  obtain ⟨g, rfl, hg⟩ := hmade.valid.confirms_of_signForBatch hb
  have hv := hg.verify_toDer
  obtain ⟨hexact, -, hcarried⟩ := verify_exact hmade [97] g.toDer
  obtain ⟨r, s, more, hmore, -, hequation⟩ := hexact.mp hv
  obtain ⟨f, -, rfl, rfl⟩ := hmore.exists_ofDer
  have hshort : Signature.IsWritten f.r.val f.s.val [] (Signature.mk f.r f.s none).toDer :=
    Signature.isWritten_iff.mpr ⟨⟨f.r, f.s, none⟩, rfl, Signature.ofDer_eq_ok.mpr rfl⟩
  exact ⟨hmade, _, _, more, _, _, hmore, hshort, hequation, hv, (hcarried _ _ _ _ _ hmore hshort).trans hv⟩

end Key

end Signet
