import Signet.Proofs.Batch.Acceptance
import Signet.Proofs.Key.RichSignature

/-!
# Honest batches

A batch of signatures that were made for it is accepted unless the nonces, with the coefficients of their positions,
add up to 0. This needs ephemeral points whose coordinates are residues modulo the order, since larger ones are not
read.
-/

namespace Signet

open Curve

theorem Word256.val_ofNat {v : Nat} (hv : v < p256.n) : (Word256.ofNat v).val = v :=
  Word256.val_ofNat_of_lt (hv.trans (by decide))

/-- A signature that was packed from residues and the point that they come from is read by them. -/
theorem BatchEntry.reads_pack {r s x y : Nat} (hr : 1 ≤ r ∧ r < p256.n) (hs : 1 ≤ s ∧ s < p256.n)
    (hy : 1 ≤ y ∧ y < p256.n) (hc : p256.contains x y = true) (hx : x = r) :
    Reads p256 (Key.pack r s (some (Word256.ofNat x, Word256.ofNat y))).toDer (Word256.ofNat r) (Word256.ofNat s)
      (Word256.ofNat x) (Word256.ofNat y) := by
  subst hx
  have ex := Word256.val_ofNat hr.2
  have es := Word256.val_ofNat hs.2
  have ey := Word256.val_ofNat hy.2
  refine ⟨Signature.ofRichDer_toDer _ _ _ _, ?_, ?_, ?_, ?_, ?_, ?_⟩
  · rwa [ex]
  · rwa [es]
  · rwa [ex]
  · rwa [ey]
  · rwa [ex, ey]
  · rw [ex, Nat.mod_eq_of_lt hr.2]

namespace Key

/-- The reading of a signature that was made for a batch: its ephemeral point is the one that its numbers ask for. -/
theorem reads_of_signForBatch {k : Key} {d : Nat} (hs : k.suite = .ecdsaP256) (hd : k.secret = some d)
    {message b : Bytes} {entropy rest : Entropy} {m : Nat}
    (h : k.signForBatch message entropy = .ok (b, rest))
    (hm : richNonce? d (digestScalar (HashAlgorithm.sha256.digest message).bytes) entropy = some m)
    (hcoord : ∃ x y, p256.mul m p256.base = .affine x y ∧ x < p256.n ∧ y < p256.n) :
    ∃ r s x y : Word256, BatchEntry.Reads p256 b r s x y
      ∧ ((m • generator p256 : p256.Group) : Point) = .affine x.val y.val
      ∧ Signing.Ecdsa.ephemeral (d • generator p256) (digestScalar (HashAlgorithm.sha256.digest message).bytes)
          r.val s.val = m • generator p256 := by
  simp only [signForBatch, hs, signRich, hd, bind_eq_ok, pure_eq_ok] at h
  obtain ⟨⟨g, rest'⟩, hg, h⟩ := h
  cases h
  obtain ⟨k', r, s, x, y, hk', ⟨h1, hn⟩, hmul, hsign, rfl⟩ := richSignature_eq_ok hg
  obtain rfl : k' = m := Option.some.inj (hk'.symm.trans hm)
  obtain ⟨x', y', hmul', hx, hy⟩ := hcoord
  rw [hmul] at hmul'
  cases hmul'
  obtain ⟨hr, hr1, hs1⟩ := Signing.Ecdsa.range_of_sign? hsign
  have hR : ((k' • generator p256 : p256.Group) : Point) = .affine x y := (mul_eq _ _).symm.trans hmul
  have hlies : p256.Lies (.affine x y) := hR ▸ (k' • generator p256).lies
  have hxr : x = r := by rw [hr, Point.x, Nat.mod_eq_of_lt hx]
  have hy0 : 1 ≤ y := Nat.pos_of_ne_zero (ordinate_ne_zero (by decide) hlies)
  have hk0 : (k' : ZMod p256.n) ≠ 0 := by
    rw [Ne, ZMod.natCast_eq_zero_iff]
    exact Nat.not_dvd_of_pos_of_lt h1 hn
  refine ⟨_, _, _, _, BatchEntry.reads_pack hr1 hs1 ⟨hy0, hy⟩ hlies hxr, ?_, ?_⟩
  · rw [Word256.val_ofNat hx, Word256.val_ofNat hy]
    exact hR
  · rw [Word256.val_ofNat hr1.2, Word256.val_ofNat hs1.2]
    exact Signing.Ecdsa.ephemeral_of_sign? (by decide) hsign hk0

theorem Valid.point_eq {k : Key} {d : Nat} (h : k.Valid) (hs : k.suite = .ecdsaP256) (hd : k.secret = some d) :
    ((d • generator p256 : p256.Group) : Point) = k.point := by
  obtain ⟨suite, secret, P, pem⟩ := k
  subst hs
  exact h.nsmul_generator hd

end Key

namespace Engine

theorem combination_nsmul (a : Schedule) (m : Nat → Nat) (P : p256.Group) :
    (combination a fun i => m i • P) = (∑ i ∈ Finset.range a.size, a.coefficient p256 i * m i) • P := by
  rw [combination, Finset.sum_smul]
  exact Finset.sum_congr rfl fun i _ => (mul_nsmul' _ _ _).symm

/-- A batch whose entries carry the points that they ask for, multiples of the base point, is decided by one sum. -/
theorem verify_of_multiples {g : Engine} {v : Key} {messages signatures : List Bytes} {a : Schedule}
    {r s : Nat → Word256} {m : Nat → Nat} {Q : p256.Group} (hQ : (Q : Point) = v.point)
    (hshape : checkShape v messages signatures = .ok ()) (ha : g.cache.lookup messages.length = some a)
    (hR : ReadsAll signatures r s fun i => m i • generator p256)
    (hm : ∀ i < messages.length,
      Signing.Ecdsa.ephemeral Q (digestAt messages i) (r i) (s i) = m i • generator p256) :
    g.verify v messages signatures
      = if (∑ i ∈ Finset.range messages.length, a.coefficient p256 i * m i) % p256.n = 0
        then .error .rejected else .ok () := by
  have hsize := size_of_lookup ha
  have hP : (combination a fun i => Signing.Ecdsa.ephemeral Q (digestAt messages i) (r i) (s i))
      = combination a fun i => m i • generator p256 := combination_congr fun i hi => hm i (hsize ▸ hi)
  rw [verify_eq hQ hshape ha hR, hP, combination_nsmul, hsize]
  simp only [ne_eq, nsmul_eq_zero_iff generator_ne_zero]
  by_cases h0 : (∑ i ∈ Finset.range messages.length, a.coefficient p256 i * m i) % p256.n = 0
  · rw [if_neg fun h => h.1 h0, if_pos h0]
  · rw [if_pos ⟨h0, trivial⟩, if_neg h0]

/-- A batch of honest signatures is rejected only if the nonces with their coefficients add up to 0. -/
theorem verify_signed (g : Engine) {k : Key} {d : Nat} (hk : k.Made) (hs : k.suite = .ecdsaP256)
    (hd : k.secret = some d) {messages signatures : List Bytes} {a : Schedule} (hpos : 0 < messages.length)
    (hlen : messages.length = signatures.length) (ha : g.cache.lookup messages.length = some a)
    {streams : Nat → Entropy} {nonces : Nat → Nat}
    (hsign : ∀ i < messages.length,
      ∃ rest, k.signForBatch (messages.getD i []) (streams i) = .ok (signatures.getD i [], rest))
    (hnonce : ∀ i < messages.length, Key.richNonce? d (digestAt messages i) (streams i) = some (nonces i))
    (hcoord : ∀ i < messages.length,
      ∃ x y, p256.mul (nonces i) p256.base = .affine x y ∧ x < p256.n ∧ y < p256.n) :
    ∀ v ∈ [k, k.publicKey],
      g.verify v messages signatures
        = if (∑ i ∈ Finset.range messages.length, a.coefficient p256 i * nonces i) % p256.n = 0
          then .error .rejected else .ok () := by
  -- What each signature is read as.
  have hall : ∀ i, ∃ r s : Word256, i < messages.length →
      (∃ x y, BatchEntry.Reads p256 (signatures.getD i []) r s x y
        ∧ ((nonces i • generator p256 : p256.Group) : Point) = .affine x.val y.val)
      ∧ Signing.Ecdsa.ephemeral (d • generator p256) (digestAt messages i) r s = nonces i • generator p256 := by
    intro i
    by_cases hi : i < messages.length
    · obtain ⟨rest, hb⟩ := hsign i hi
      obtain ⟨r, s, x, y, hr, hR, he⟩ := Key.reads_of_signForBatch hs hd hb (hnonce i hi) (hcoord i hi)
      exact ⟨r, s, fun _ => ⟨⟨x, y, hr, hR⟩, he⟩⟩
    · exact ⟨0, 0, fun h => absurd h hi⟩
  choose r s hread using hall
  have hQ := hk.valid.point_eq hs hd
  intro v hv
  have hv' : v.suite = .ecdsaP256 ∧ v.point = k.point := by
    simp only [List.mem_cons, List.not_mem_nil, or_false] at hv
    rcases hv with rfl | rfl
    · exact ⟨hs, rfl⟩
    · exact ⟨(Key.publicKey_suite k).trans hs, Key.publicKey_point k⟩
  refine verify_of_multiples (r := r) (s := s) (hv'.2 ▸ hQ) (checkShape_eq_ok.mpr ⟨hv'.1, hlen, hpos⟩) ha ?_ ?_
  · exact fun i hi => (hread i (hlen ▸ hi)).1
  · exact fun i hi => (hread i hi).2

/-- The signature of the empty message with the private key 1 and the nonce 1, and its batch. -/
theorem verify_signed_single :
    ∃ b rest, (Key.ofScalar .ecdsaP256 1).signForBatch [] (Bytes.ofNat 32 1) = .ok (b, rest) ∧
      Key.richNonce? 1 (digestAt [[]] 0) (Bytes.ofNat 32 1) = some 1 ∧
      plain.verify (Key.ofScalar .ecdsaP256 1) [[]] [b] = .ok () ∧
      plain.verify (Key.ofScalar .ecdsaP256 1).publicKey [[]] [b] = .ok () := by
  have hmade := Key.made_ofScalar .ecdsaP256 (le_refl 1) (by decide)
  have hok : ((Key.ofScalar .ecdsaP256 1).signForBatch [] (Bytes.ofNat 32 1)).isOk = true := by decide +kernel
  cases hb : (Key.ofScalar .ecdsaP256 1).signForBatch [] (Bytes.ofNat 32 1) with
  | error e =>
    rw [hb] at hok
    cases hok
  | ok signed =>
    obtain ⟨b, rest⟩ := signed
    have hnonce : Key.richNonce? 1 (digestAt [[]] 0) (Bytes.ofNat 32 1) = some 1 := by decide +kernel
    have hmul : p256.mul 1 p256.base = p256.base := by decide +kernel
    have hzero : ∀ i < [([] : Bytes)].length, i = 0 := fun i hi => by simpa using hi
    have h := @verify_signed plain (Key.ofScalar .ecdsaP256 1) 1 hmade rfl rfl [[]] [b] _ Nat.one_pos rfl rfl
      (fun _ => Bytes.ofNat 32 1) (fun _ => 1) (fun i hi => ⟨rest, hzero i hi ▸ hb⟩) (fun i hi => hzero i hi ▸ hnonce)
      fun i _ => ⟨p256.gx, p256.gy, hmul, by decide, by decide⟩
    rw [if_neg (by decide +kernel)] at h
    exact ⟨b, rest, rfl, hnonce, h _ (by simp), h _ (by simp)⟩

end Engine

end Signet
