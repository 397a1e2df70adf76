import Signet.Proofs.Batch.Acceptance
import Signet.Proofs.Curve.Coordinate

/-!
# What an accepted batch says about its signatures

The coefficients of a size are fixed and known, and only first coordinates are compared. So an accepted batch consists
of signatures that are accepted one by one, unless the points that they ask for and the points that they carry differ
and still agree in the combination.
-/

namespace Signet

open Curve Signing.Ecdsa

/-- A signature that is read as an entry is accepted on its own if the point that it asks for leaves the number `r`. -/
theorem Key.verify_of_reads {k : Key} (hs : k.suite = .ecdsaP256) {Q : p256.Group} (hQ : (Q : Point) = k.point)
    {message b : Bytes} {r s x y : Word256} (h : BatchEntry.Reads p256 b r s x y) :
    k.verify message b = .ok () ↔
      (ephemeral Q (digestScalar (HashAlgorithm.sha256.digest message).bytes) r s : Point).x % p256.n = r.val := by
  have hread := Signature.ofDer_of_ofRichDer h.signature
  have hacc : k.accepts message r s
      = Signing.Ecdsa.verify p256 Q (digestScalar (HashAlgorithm.sha256.digest message).bytes) r s := by
    rw [accepts, hs, hQ]
  rw [← verify_iff (by decide), ← hacc, verify_eq_ok]
  constructor
  · rintro ⟨g, hg, hconfirms⟩
    rw [hread] at hg
    cases hg
    exact hconfirms.accepts
  · intro ha
    exact ⟨_, hread, hs ▸ h.reduced_r, hs ▸ h.reduced_s, ha⟩

namespace Engine

/-- The ways for points `V i` to agree with other points `R i` in the combined check. -/
inductive Cancels (a : Schedule) (V R : Nat → p256.Group) : Prop
  /-- The differences add up to 0: one of them has the coefficient 0, or there is another one. -/
  | errors (i : Nat) (hi : i < a.size) (hne : V i ≠ R i)
    (hother : a.coefficient p256 i = 0 ∨ ∃ j < a.size, j ≠ i ∧ V j ≠ R j) (h : combination a V = combination a R)
  /-- The sums are opposite, which the first coordinate does not tell. -/
  | negated (hne : combination a V ≠ combination a R) (h : combination a V = -combination a R)
  /-- The sum of the carried points is at infinity, whose first coordinate counts as 0. -/
  | vanished (h0 : combination a R = 0) (hne : combination a V ≠ 0) (h : (combination a V : Point).x % p256.n = 0)
  /-- The first coordinates differ by the order. -/
  | wrapped (h : (combination a V : Point).x = (combination a R : Point).x + p256.n
      ∨ (combination a R : Point).x = (combination a V : Point).x + p256.n)

/-- Sums that are equal have equal points, or differences that cancel. -/
theorem cancels_of_combination_eq {a : Schedule} {V R : Nat → p256.Group} (h : combination a V = combination a R) :
    (∀ i < a.size, V i = R i) ∨ Cancels a V R := by
  by_cases hall : ∀ i < a.size, V i = R i
  · exact .inl hall
  · push Not at hall
    obtain ⟨i, hi, hne⟩ := hall
    refine .inr (.errors i hi hne ?_ h)
    by_cases hj : ∃ j < a.size, j ≠ i ∧ V j ≠ R j
    · exact .inr hj
    · push Not at hj
      -- Only the difference at `i` is left, so that its multiple by the coefficient is 0.
      have hsum : ∑ j ∈ Finset.range a.size, a.coefficient p256 j • (V j - R j) = 0 := by
        simp only [smul_sub, Finset.sum_sub_distrib]
        exact sub_eq_zero.mpr h
      have hrest : ∀ j ∈ Finset.range a.size, j ≠ i → a.coefficient p256 j • (V j - R j) = 0 := by
        intro j hmem hji
        rw [hj j (Finset.mem_range.mp hmem) hji, sub_self, smul_zero]
      rw [Finset.sum_eq_single_of_mem i (Finset.mem_range.mpr hi) hrest,
        nsmul_eq_zero_iff (sub_ne_zero.mpr hne), Nat.mod_eq_of_lt (a.coefficient_lt (by decide) i)] at hsum
      exact .inl hsum

/-- Points that agree in the combined check are equal, or agree in one of the ways above. -/
theorem cancels_of_x_mod_eq {a : Schedule} {V R : Nat → p256.Group} (h0 : combination a V ≠ 0)
    (hx : (combination a V : Point).x % p256.n = (combination a R : Point).x % p256.n) :
    (∀ i < a.size, V i = R i) ∨ Cancels a V R := by
  by_cases he : combination a V = combination a R
  · exact cancels_of_combination_eq he
  · rcases cases_of_x_mod_eq (by decide) h0 hx with he' | hn | ⟨hz, hx0⟩ | hw
    · exact absurd he' he
    · exact .inr (.negated he hn)
    · exact .inr (.vanished hz h0 hx0)
    · exact .inr (.wrapped hw)

/-- The signatures of an accepted batch are accepted one by one, unless their errors cancel. -/
theorem verify_sound {g : Engine} {k : Key} (hk : k.Made) {messages signatures : List Bytes}
    (h : g.verify k messages signatures = .ok ()) :
    (∀ i < messages.length, k.verify (messages.getD i []) (signatures.getD i []) = .ok ()) ∨
      ∃ (Q : p256.Group) (a : Schedule) (r s : Nat → Word256) (R : Nat → p256.Group),
        (Q : Point) = k.point ∧ g.cache.lookup messages.length = some a ∧ ReadsAll signatures r s R ∧
          Cancels a (fun i => ephemeral Q (digestAt messages i) (r i) (s i)) R := by
  obtain ⟨hshape, a, r, s, R, ha, hR⟩ := readsAll_of_verify h
  obtain ⟨hs, hlen, -⟩ := checkShape_eq_ok.mp hshape
  obtain ⟨Q, hQ⟩ := hk.valid.exists_point hs
  have hsize := size_of_lookup ha
  rw [verify_eq hQ hshape ha hR] at h
  split at h
  · next hP =>
    rcases cancels_of_x_mod_eq hP.1 hP.2 with hall | hc
    · left
      intro i hi
      obtain ⟨x, y, hr, hRi⟩ := hR i (by omega)
      have hV : ephemeral Q (digestAt messages i) (r i) (s i) = R i := hall i (by omega)
      refine (Key.verify_of_reads hs hQ hr).mpr ?_
      rw [← digestAt, hV, hRi]
      exact hr.agrees
    · exact .inr ⟨Q, a, r, s, R, hQ, ha, hR, hc⟩
  · cases h

structure Forgery where
  key : Key
  messages : List Bytes
  signatures : List Bytes

/-- The rich signature with the number `s` that carries the point `(x, y)`. -/
def carrying (x y s : Nat) : Bytes :=
  (Key.pack x s (some (Word256.ofNat x, Word256.ofNat y))).toDer

/-- The signature with the private key 1 that carries the multiple of the base point by `k` and asks for that by `v`. -/
def crossed (message : Bytes) (k v : Nat) : Bytes :=
  match p256.mul k p256.base with
  | .infinity => []
  | .affine x y =>
    carrying x y
      (Modular.inv p256.n v * (digestScalar (HashAlgorithm.sha256.digest message).bytes + x) % p256.n)

/-- Two signatures of the messages `a` and `b` that carry the point of each other. -/
def swapped : Forgery where
  key := .ofScalar .ecdsaP256 1
  messages := [[97], [98]]
  signatures := [crossed [97] 1 2, crossed [98] 2 1]

/-- Two signatures that ask for points with the opposite sum. -/
def negated : Forgery where
  key := .ofScalar .ecdsaP256 1
  messages := [[97], [98]]
  signatures := [crossed [97] 1 (p256.n - 4), crossed [98] 2 1]

/-- Two signatures that carry opposite points, under a key for which they ask for points with twice the sum
`(0, √b)`. -/
def vanished : Forgery where
  key := .ofPoint .ecdsaP256 (.affine 0xc96bed3627e8f13f08b31c6e8c650e75a7f9acf4b903555cc3d69bd9e5456123
    0x3576620d4d0751ad59de959dbf89cffadb9aca9ecf2bd4297f8966ed17dcb0da)
  messages := [[97], [98]]
  signatures := [carrying p256.gx p256.gy 1, carrying p256.gx (p256.p - p256.gy) 1]

/-- A signature that carries half of a point with the first coordinate 6, under a key for which it asks for half of a
point with the first coordinate `n + 6`. -/
def wrapped : Forgery where
  key := .ofPoint .ecdsaP256 (.affine 0x0648120c448ec929ed0f27ac2d9414892a2f6ca04e7eb19e1289ec522d6777b9
    0x5ae85bbc9d8c853e7fc6f98f41c14ed2c605884b31b3b28ac15c3fb11cd505b2)
  messages := [[97]]
  signatures := [carrying 0x0e3697b2e4986ad7e20001244f4f1650464a14eafa427110af0b7c4fbdbd3ef4
    0x5dafeb254e6e87e886539ed851141d222cf7484454b0f1c585ff6f7ecc0d65a9 1]

/-- A forgery passes if its batch is accepted although not all of its signatures are. -/
structure Forgery.Passes (b : Forgery) : Prop where
  made : b.key.Made
  suite : b.key.suite = .ecdsaP256
  accepted : plain.verify b.key b.messages b.signatures = .ok ()
  refused : ¬∀ i < b.messages.length, b.key.verify (b.messages.getD i []) (b.signatures.getD i []) = .ok ()

theorem Forgery.passes_of_first {b : Forgery} (hmade : b.key.Made)
    (hok : plain.verify b.key b.messages b.signatures = .ok ())
    (herr : b.key.verify (b.messages.getD 0 []) (b.signatures.getD 0 []) = .error .invalidSignature) : b.Passes := by
  obtain ⟨hs, -, hpos⟩ := checkShape_eq_ok.mp (readsAll_of_verify hok).1
  refine ⟨hmade, hs, hok, fun hall => ?_⟩
  have h0 := hall 0 hpos
  rw [herr] at h0
  cases h0

theorem passes_swapped : swapped.Passes :=
  Forgery.passes_of_first (Key.made_ofScalar .ecdsaP256 (le_refl 1) (by decide)) (by decide +kernel) (by decide +kernel)

theorem verify_sound_swapped :
    swapped.key.Made ∧ plain.verify swapped.key swapped.messages swapped.signatures = .ok () ∧
      ∃ (Q : p256.Group) (a : Schedule) (r s : Nat → Word256) (R : Nat → p256.Group),
        (Q : Point) = swapped.key.point ∧ plain.cache.lookup 2 = some a ∧ ReadsAll swapped.signatures r s R ∧
          Cancels a (fun i => ephemeral Q (digestAt swapped.messages i) (r i) (s i)) R := by
  obtain ⟨hmade, -, hok, hno⟩ := passes_swapped
  exact ⟨hmade, hok, (verify_sound hmade hok).resolve_left hno⟩

theorem passes_vanished : vanished.Passes := by
  have hread : Key.ofBuffer .ecdsaP256 vanished.key.toBuffer = .ok vanished.key := by decide +kernel
  exact Forgery.passes_of_first (.ofBuffer hread) (by decide +kernel) (by decide +kernel)

/-- One forgery for each way to agree. -/
theorem verify_unsound : swapped.Passes ∧ negated.Passes ∧ vanished.Passes ∧ wrapped.Passes := by
  have hread : Key.ofBuffer .ecdsaP256 wrapped.key.toBuffer = .ok wrapped.key := by decide +kernel
  refine ⟨passes_swapped, ?_, passes_vanished, ?_⟩
  · exact Forgery.passes_of_first passes_swapped.made (by decide +kernel) (by decide +kernel)
  · exact Forgery.passes_of_first (.ofBuffer hread) (by decide +kernel) (by decide +kernel)

end Engine

end Signet
