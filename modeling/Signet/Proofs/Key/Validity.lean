import Signet.Key.Encoding
import Signet.Proofs.Bytes
import Signet.Proofs.Curve.Encoding
import Signet.Proofs.Curve.Standard
import Signet.Proofs.Result

/-!
# Keys are valid

Whichever way a key is made, its point lies on the curve of its suite and is not at infinity. The point of a private
key is the multiple of the base point by its scalar, a residue other than 0.
-/

namespace Signet

instance Suite.hasPrimeOrder (s : Suite) : s.curve.HasPrimeOrder :=
  match s with
  | .ecdsaP256 => inferInstanceAs Curve.p256.HasPrimeOrder
  | .sm2 => inferInstanceAs Curve.sm2.HasPrimeOrder

theorem Suite.coordinate_bounds (s : Suite) :
    s.curve.p ≤ 256 ^ Curve.coordinateSize ∧ s.curve.p % 4 = 3 ∧ s.curve.n ≠ 2 := by
  cases s <;> decide

theorem Entropy.drawScalar?_range {n k : Nat} {e f : Entropy} (h : e.drawScalar? n = some (k, f)) :
    1 ≤ k ∧ k < n := by
  fun_induction drawScalar? n e with
  | case1 => cases h
  | case2 e b g hd hk =>
    simp only [Option.some.injEq, Prod.mk.injEq] at h
    rw [← h.1]
    exact hk
  | case3 e b g hd hk ih => exact ih h

theorem Entropy.drawScalar?_ofNat {n d : Nat} (h1 : 1 ≤ d) (hn : d < n) (h : n ≤ 2 ^ 256) (e : Entropy) :
    drawScalar? n (Bytes.ofNat 32 d ++ e) = some (d, e) := by
  have hd : Bytes.toNat (Bytes.ofNat 32 d) = d := by
    rw [Bytes.toNat_ofNat]
    exact Nat.mod_eq_of_lt (by omega)
  have hdraw : draw? 32 (Bytes.ofNat 32 d ++ e) = some (Bytes.ofNat 32 d, e) := by
    rw [draw?, if_pos (by simp), List.take_left' (by simp), List.drop_left' (by simp)]
  rw [drawScalar?]
  split
  · next hnone =>
    rw [hdraw] at hnone
    cases hnone
  · next hsome =>
    rw [hdraw] at hsome
    cases hsome
    rw [hd, if_pos ⟨h1, hn⟩]

namespace Key

/-- The ways to make a key. -/
inductive Made : Key → Prop
  | generate {suite : Suite} {e f : Entropy} {k : Key} (h : generate suite e = .ok (k, f)) : Made k
  | ofPem {suite : Suite} {b : Bytes} {k : Key} (h : ofPem suite b = .ok k) : Made k
  | ofPublicDer {b : Bytes} {k : Key} (h : ofPublicDer b = .ok k) : Made k
  | ofPublicInfo {info : Der.PublicKeyInfo} {k : Key} (h : ofPublicInfo info = .ok k) : Made k
  | ofBuffer {suite : Suite} {b : Bytes} {k : Key} (h : ofBuffer suite b = .ok k) : Made k
  | publicKey {k : Key} (h : Made k) : Made k.publicKey

/-- Every scalar in the range is that of a new key. -/
theorem made_ofScalar (suite : Suite) {d : Nat} (h1 : 1 ≤ d) (hn : d < suite.curve.n) : (ofScalar suite d).Made := by
  have hle : suite.curve.n ≤ 2 ^ 256 := by cases suite <;> decide
  have h : Key.generate suite (Bytes.ofNat 32 d ++ []) = .ok (ofScalar suite d, []) := by
    rw [Key.generate, Entropy.drawScalar?_ofNat h1 hn hle]
  exact .generate h

/-- The point of a valid key lies on the curve, and it is the right one if the key is private. -/
structure Valid (k : Key) : Prop where
  lies : k.suite.curve.Lies k.point
  ne_infinity : k.point ≠ .infinity
  secret : ∀ d, k.secret = some d → 1 ≤ d ∧ d < k.suite.curve.n ∧ k.point = k.suite.curve.mul d k.suite.curve.base

theorem valid_of_contains (suite : Suite) {P : Point} (pem : Bytes)
    (h : ∃ x y, P = .affine x y ∧ suite.curve.contains x y = true) : Valid ⟨suite, none, P, pem⟩ := by
  obtain ⟨x, y, rfl, hc⟩ := h
  exact ⟨hc, Point.noConfusion, fun d hd => by cases hd⟩

theorem valid_of_scalar (suite : Suite) {d : Nat} (pem : Bytes) (h1 : 1 ≤ d) (hn : d < suite.curve.n) :
    Valid ⟨suite, some d, suite.curve.mul d suite.curve.base, pem⟩ := by
  have hmul := Curve.mul_eq d (Curve.generator suite.curve)
  refine ⟨?_, ?_, ?_⟩
  · exact hmul ▸ (d • Curve.generator suite.curve).lies
  · intro hinf
    have h0 : d • Curve.generator suite.curve = 0 := Curve.coe_eq_infinity_iff.mp (hmul.symm.trans hinf)
    rw [Curve.nsmul_eq_zero_iff Curve.generator_ne_zero, Nat.mod_eq_of_lt hn] at h0
    omega
  · rintro _ ⟨⟩
    exact ⟨h1, hn, rfl⟩

theorem contains_of_point? {suite : Suite} {info : Der.PublicKeyInfo} {P : Point} (h : point? suite info = some P) :
    ∃ x y, P = .affine x y ∧ suite.curve.contains x y = true := by
  unfold point? at h
  simp only [Option.bind_eq_bind, Option.bind_eq_some_iff, Option.ite_none_right_eq_some] at h
  obtain ⟨b, -, -, hP⟩ := h
  exact Curve.decodePoint?_eq_some hP

theorem range_of_secret? {suite : Suite} {info : PrivateKeyInfo} {d : Nat} (h : secret? suite info = some d) :
    1 ≤ d ∧ d < suite.curve.n := by
  unfold secret? at h
  simp only [Option.bind_eq_bind, Option.bind_eq_some_iff, Option.ite_none_right_eq_some, Option.some.injEq] at h
  obtain ⟨inner, -, d', hd, -, rfl⟩ := h
  unfold Curve.scalar? at hd
  simp only [Option.ite_none_right_eq_some, Option.some.injEq] at hd
  obtain ⟨⟨-, -, h1, hn⟩, rfl⟩ := hd
  exact ⟨h1, hn⟩

theorem valid_of_ofPublicInfo {info : Der.PublicKeyInfo} {k : Key} (h : ofPublicInfo info = .ok k) : k.Valid := by
  obtain ⟨suite, -, h⟩ := bind_eq_ok.mp h
  split at h
  · next P hP =>
    cases h
    exact valid_of_contains suite _ (contains_of_point? hP)
  · cases h

theorem ofPrivateBlock_eq_ok {suite : Suite} {b pem : Bytes} {k : Key} (h : ofPrivateBlock suite b pem = .ok k) :
    ∃ d, (1 ≤ d ∧ d < suite.curve.n) ∧ k = ⟨suite, some d, suite.curve.mul d suite.curve.base, pem⟩ := by
  unfold ofPrivateBlock at h
  split at h
  · cases h
  · simp only [bind_eq_ok] at h
    obtain ⟨-, -, -, -, h⟩ := h
    split at h
    · next d hd =>
      cases h
      exact ⟨d, range_of_secret? hd, rfl⟩
    · cases h

theorem ofPublicBlock_eq_ok {suite : Suite} {b pem : Bytes} {k : Key} (h : ofPublicBlock suite b pem = .ok k) :
    ∃ P, (∃ x y, P = .affine x y ∧ suite.curve.contains x y = true) ∧ k = ⟨suite, none, P, pem⟩ := by
  unfold ofPublicBlock at h
  split at h
  · cases h
  · simp only [bind_eq_ok] at h
    obtain ⟨-, -, -, -, h⟩ := h
    split at h
    · next P hP =>
      cases h
      exact ⟨P, contains_of_point? hP, rfl⟩
    · cases h

theorem publicLabel_ne : publicLabel ≠ privateLabel := by decide

theorem ofBlock_eq_ok {suite : Suite} {block : Pem.Block} {pem : Bytes} {k : Key} :
    ofBlock suite block pem = .ok k ↔
      block.label = privateLabel ∧ ofPrivateBlock suite block.content pem = .ok k ∨
        block.label = publicLabel ∧ ofPublicBlock suite block.content pem = .ok k := by
  unfold ofBlock
  constructor
  · intro h
    split at h
    · next hprivate => exact .inl ⟨hprivate, h⟩
    · split at h
      · next hpublic => exact .inr ⟨hpublic, h⟩
      · cases h
  · rintro (⟨hprivate, h⟩ | ⟨hpublic, h⟩)
    · rwa [if_pos hprivate]
    · rwa [hpublic, if_neg publicLabel_ne, if_pos rfl]

theorem exists_of_ofPem {suite : Suite} {b : Bytes} {k : Key} (h : ofPem suite b = .ok k) :
    ∃ text block, Bytes.toString? b = some text ∧ Pem.decode? b = some block ∧
      ofBlock suite block (Bytes.ofString (Text.trimStart text)) = .ok k := by
  unfold ofPem at h
  split at h
  · next text block htext hblock => exact ⟨text, block, htext, hblock, h⟩
  · cases h

/-- A key that is read from a block is valid and keeps the text. -/
theorem valid_of_ofBlock {suite : Suite} {block : Pem.Block} {pem : Bytes} {k : Key}
    (h : ofBlock suite block pem = .ok k) : k.Valid ∧ k.pem = pem := by
  rcases ofBlock_eq_ok.mp h with ⟨-, h⟩ | ⟨-, h⟩
  · obtain ⟨d, ⟨h1, hn⟩, rfl⟩ := ofPrivateBlock_eq_ok h
    exact ⟨valid_of_scalar suite pem h1 hn, rfl⟩
  · obtain ⟨P, hP, rfl⟩ := ofPublicBlock_eq_ok h
    exact ⟨valid_of_contains suite pem hP, rfl⟩

theorem suite_of_ofPem {suite : Suite} {b : Bytes} {k : Key} (h : ofPem suite b = .ok k) : k.suite = suite := by
  obtain ⟨_, _, -, -, h⟩ := exists_of_ofPem h
  rcases ofBlock_eq_ok.mp h with ⟨-, h⟩ | ⟨-, h⟩
  · obtain ⟨_, -, rfl⟩ := ofPrivateBlock_eq_ok h
    rfl
  · obtain ⟨_, -, rfl⟩ := ofPublicBlock_eq_ok h
    rfl

theorem Made.valid {k : Key} (h : k.Made) : k.Valid := by
  induction h with
  | @generate suite e f k h =>
    unfold Key.generate at h
    split at h
    · next d g hd =>
      cases h
      obtain ⟨h1, hn⟩ := Entropy.drawScalar?_range hd
      exact valid_of_scalar suite _ h1 hn
    · cases h
  | @ofPem suite b k h =>
    obtain ⟨_, _, -, -, h⟩ := exists_of_ofPem h
    exact (valid_of_ofBlock h).1
  | @ofPublicDer b k h =>
    unfold Key.ofPublicDer at h
    split at h
    · cases h
    · exact valid_of_ofPublicInfo h
  | ofPublicInfo h => exact valid_of_ofPublicInfo h
  | @ofBuffer suite b k h =>
    obtain ⟨p, -, h⟩ := bind_eq_ok.mp h
    split at h
    · next P hP =>
      cases h
      exact valid_of_contains suite _ (Curve.decodePoint?_eq_some hP)
    · cases h
  | @publicKey k _ ih =>
    unfold Key.publicKey
    split
    · exact ⟨ih.lies, ih.ne_infinity, fun d hd => by cases hd⟩
    · exact ih

/-- The point of a private key, as a multiple of the generator. -/
theorem Valid.nsmul_generator {k : Key} {d : Nat} (h : k.Valid) (hd : k.secret = some d) :
    ((d • Curve.generator k.suite.curve : k.suite.curve.Group) : Point) = k.point := by
  obtain ⟨-, -, hP⟩ := h.secret d hd
  exact (Curve.mul_eq d (Curve.generator k.suite.curve)).symm.trans hP.symm

theorem Valid.eq_of_samePublic {k l : Key} (hk : k.Valid) (hl : l.Valid) (h : k.samePublic l = true) :
    k.suite = l.suite ∧ k.point = l.point := by
  simp only [samePublic, Bool.and_eq_true, beq_iff_eq] at h
  obtain ⟨hs, hP⟩ := h
  exact ⟨hs, Curve.eq_of_encodePoint_eq k.suite.coordinate_bounds.1 hk.lies (hs ▸ hl.lies) hP⟩

theorem Valid.samePublic_iff {k l : Key} (hk : k.Valid) (hl : l.Valid) (hsuite : k.suite = l.suite) :
    k.samePublic l = true ↔ k.point = l.point := by
  constructor
  · intro h
    exact (hk.eq_of_samePublic hl h).2
  · intro h
    simp only [samePublic, pointBytes, hsuite, h, BEq.rfl, Bool.and_self]

theorem publicKey_suite (k : Key) : k.publicKey.suite = k.suite := by
  rw [publicKey]
  split <;> rfl

theorem publicKey_point (k : Key) : k.publicKey.point = k.point := by
  rw [publicKey]
  split <;> rfl

theorem isPrivate_publicKey {k : Key} (h : k.isPrivate = true) : k.publicKey.isPrivate = false := by
  rw [publicKey, if_pos h]
  rfl

theorem samePublic_publicKey (k : Key) : k.publicKey.samePublic k = true := by
  simp only [samePublic, pointBytes, publicKey_suite, publicKey_point, BEq.rfl, Bool.and_self]

theorem generate_eq_ok {suite : Suite} {e f : Entropy} {k : Key} (h : generate suite e = .ok (k, f)) :
    k.suite = suite ∧ k.isPrivate = true := by
  unfold generate at h
  split at h
  · cases h
    exact ⟨rfl, rfl⟩
  · cases h

end Key

end Signet
