import Signet.Batch.Engine
import Signet.Proofs.Batch.Entry
import Signet.Proofs.Curve.Standard
import Signet.Proofs.Schedule.Folding
import Signet.Proofs.Signing.Ecdsa

/-!
# The combined equation

The combined point of a batch is the sum of the ephemeral points that its signatures ask for, each with its coefficient.
It is compared with the sum of the ephemeral points that the entries carry, with the same coefficients.
-/

namespace Signet

open Curve Signing.Ecdsa

variable (r s e : Nat → Nat)

theorem Schedule.coefficients_eq (C : Curve) [C.HasPrimeOrder] (a : Schedule) :
    a.coefficients C.n = (List.range a.size).map (a.coefficient C) := by
  refine List.ext_getElem (by simp [length_coefficients]) fun i h _ => ?_
  rw [List.getElem_map, List.getElem_range, coefficient, List.getD_eq_getElem _ _ h]

/-- The sum of the numbers of a list that is given by position. -/
theorem foldr_map_range (n : Nat) (f : Nat → Nat) :
    ((List.range n).map f).foldr (· + ·) 0 = ∑ i ∈ Finset.range n, f i := rfl

namespace Engine

section Combine

variable {C : Curve} [C.HasPrimeOrder]

theorem combine_eq (h2 : C.n ≠ 2) (Q : C.Group) (n : Nat) (c : Nat → Nat) (R : Nat → Point) :
    let sums := combine C ((List.range n).map fun i => ⟨r i, Modular.inv C.n (s i), R i⟩) ((List.range n).map e)
      ((List.range n).map c)
    C.mulAdd sums.1 sums.2 Q = (∑ i ∈ Finset.range n, c i • ephemeral Q (e i) (r i) (s i) : C.Group) := by
  -- The weight of a position is the inverse of `s` times the coefficient.
  have hw : ∀ i (P : C.Group), (Modular.inv C.n (s i) * c i % C.n) • P = c i • (s i : ZMod C.n)⁻¹ • P := by
    intro i P
    rw [mod_nsmul, mul_nsmul, ← cast_smul (Modular.inv C.n (s i)), Modular.cast_inv h2]
  simp only [combine, List.zipWith_map, List.zipWith_self, foldr_map_range]
  rw [mulAdd_eq (G := generator C) rfl, mod_nsmul, mod_nsmul]
  refine congrArg Curve.Group.point ?_
  rw [Finset.sum_smul, Finset.sum_smul, ← Finset.sum_add_distrib]
  refine Finset.sum_congr rfl fun i _ => ?_
  rw [mul_nsmul', mul_nsmul', hw, hw, ephemeral, smul_add, smul_add]

end Combine

/-! ## Whole batches -/

def digestAt (messages : List Bytes) (i : Nat) : Nat :=
  digestScalar (HashAlgorithm.sha256.digest (messages.getD i [])).bytes

theorem map_digest (messages : List Bytes) :
    (messages.map fun m => digestScalar (HashAlgorithm.sha256.digest m).bytes)
      = (List.range messages.length).map (digestAt messages) := by
  refine List.ext_getElem (by simp) fun i h _ => ?_
  have hi : i < messages.length := by simpa using h
  rw [List.getElem_map, List.getElem_map, List.getElem_range, digestAt, List.getD_eq_getElem _ _ hi]

/-- The sum of points with the coefficients that a schedule gives their positions. -/
def combination (a : Schedule) (R : Nat → p256.Group) : p256.Group :=
  ∑ i ∈ Finset.range a.size, a.coefficient p256 i • R i

theorem combination_congr {a : Schedule} {R S : Nat → p256.Group} (h : ∀ i < a.size, R i = S i) :
    combination a R = combination a S :=
  Finset.sum_congr rfl fun i hi => by rw [h i (Finset.mem_range.mp hi)]

theorem fold_eq_combination (a : Schedule) (w : Nat → Nat) (R : Nat → p256.Group) :
    a.fold p256 (((List.range a.size).map fun i => (⟨r i, w i, R i⟩ : BatchEntry)).map BatchEntry.point)
      = .ok (combination a R : Point) := by
  refine a.fold_eq R (by simp) fun i hi => ?_
  rw [List.getD_eq_getElem _ _ (by simpa using hi)]
  simp

theorem holds_eq (a : Schedule) (Q : p256.Group) (R : Nat → p256.Group) :
    holds a Q ((List.range a.size).map fun i => ⟨r i, Modular.inv p256.n (s i), R i⟩) ((List.range a.size).map e)
      = if combination a (fun i => ephemeral Q (e i) (r i) (s i)) ≠ 0
          ∧ (combination a fun i => ephemeral Q (e i) (r i) (s i) : Point).x % p256.n
            = (combination a R : Point).x % p256.n
        then .ok () else .error .rejected := by
  have hP := combine_eq r s e (by decide) Q a.size (a.coefficient p256) fun i => R i
  rw [← Schedule.coefficients_eq] at hP
  simp only [holds, fold_eq_combination]
  rw [show p256.mulAdd _ _ _ = _ from hP]
  by_cases hz : (∑ i ∈ Finset.range a.size, a.coefficient p256 i • ephemeral Q (e i) (r i) (s i)) = 0
  · rw [if_pos (coe_eq_infinity_iff.mpr hz), if_neg fun h => h.1 hz]
  · rw [if_neg (mt coe_eq_infinity_iff.mp hz)]
    simp only [ne_eq, combination, hz, not_false_eq_true, true_and]
    rfl

theorem checkShape_eq_ok {k : Key} {messages signatures : List Bytes} :
    checkShape k messages signatures = .ok () ↔
      k.suite = .ecdsaP256 ∧ messages.length = signatures.length ∧ 0 < messages.length := by
  have hsup : k.suite.supportsBatch = false ↔ k.suite ≠ .ecdsaP256 := by cases k.suite <;> simp [Suite.supportsBatch]
  rw [checkShape, List.length_pos_iff]
  by_cases h1 : k.suite.supportsBatch = false
  · rw [if_pos h1]
    simp [hsup.mp h1]
  · rw [if_neg h1]
    by_cases h2 : messages.length ≠ signatures.length
    · rw [if_pos h2]
      simp [h2]
    · rw [if_neg h2]
      by_cases h3 : messages = [] <;> simp_all

theorem size_of_lookup {c : Cache} {n : Nat} {a : Schedule} (h : c.lookup n = some a) : a.size = n := by
  simpa using List.find?_some h

/-- The signatures of a batch are read as the numbers `r i` and `s i` and the ephemeral points `R i`. -/
def ReadsAll (signatures : List Bytes) (r s : Nat → Word256) (R : Nat → p256.Group) : Prop :=
  ∀ i < signatures.length,
    ∃ x y, BatchEntry.Reads p256 (signatures.getD i []) (r i) (s i) x y ∧ (R i : Point) = .affine x.val y.val

theorem readsAll_of_decodeAll {signatures : List Bytes} {es : List BatchEntry}
    (h : BatchEntry.decodeAll p256 0 signatures = .ok es) : ∃ r s R, ReadsAll signatures r s R := by
  obtain ⟨E, -, hE⟩ := BatchEntry.decodeAll_eq_ok.mp h
  have hall : ∀ i, ∃ (r s : Word256) (R : p256.Group), i < signatures.length →
      ∃ x y, BatchEntry.Reads p256 (signatures.getD i []) r s x y ∧ (R : Point) = .affine x.val y.val := by
    intro i
    by_cases hi : i < signatures.length
    · obtain ⟨r, s, x, y, hr, -⟩ := BatchEntry.decode_eq_ok.mp (hE i hi)
      exact ⟨r, s, ⟨.affine x.val y.val, hr.contains⟩, fun _ => ⟨x, y, hr, rfl⟩⟩
    · exact ⟨0, 0, 0, fun h => absurd h hi⟩
  choose r s R hR using hall
  exact ⟨r, s, R, hR⟩

theorem decodeAll_of_readsAll {signatures : List Bytes} {r s : Nat → Word256} {R : Nat → p256.Group}
    (h : ReadsAll signatures r s R) :
    BatchEntry.decodeAll p256 0 signatures
      = .ok ((List.range signatures.length).map fun i => ⟨(r i).val, Modular.inv p256.n (s i).val, R i⟩) := by
  refine BatchEntry.decodeAll_eq_ok.mpr ⟨_, rfl, fun i hi => ?_⟩
  obtain ⟨x, y, hr, hR⟩ := h i hi
  exact BatchEntry.decode_eq_ok.mpr ⟨_, _, x, y, hr, by rw [hR]⟩

/-- A batch whose signatures are all read is decided by its equation. -/
theorem verify_eq {g : Engine} {k : Key} {messages signatures : List Bytes} {a : Schedule} {r s : Nat → Word256}
    {R : Nat → p256.Group} {Q : p256.Group} (hQ : (Q : Point) = k.point)
    (hshape : checkShape k messages signatures = .ok ()) (ha : g.cache.lookup messages.length = some a)
    (h : ReadsAll signatures r s R) :
    g.verify k messages signatures
      = if combination a (fun i => ephemeral Q (digestAt messages i) (r i) (s i)) ≠ 0
          ∧ (combination a fun i => ephemeral Q (digestAt messages i) (r i) (s i) : Point).x % p256.n
            = (combination a R : Point).x % p256.n
        then .ok () else .error .rejected := by
  have hsize := size_of_lookup ha
  have hlen : signatures.length = a.size := by rw [hsize, (checkShape_eq_ok.mp hshape).2.1]
  have hentries := decodeAll_of_readsAll h
  rw [hlen] at hentries
  have hholds := holds_eq (fun i => (r i).val) (fun i => (s i).val) (digestAt messages) a Q R
  rw [← hholds, hQ]
  rw [← hsize] at ha
  simp only [verify, hshape, hentries, map_digest, ← hsize, ha]
  exact if_neg (not_not_intro rfl)

/-- A batch that is accepted has the right shape, a schedule, and signatures that are all read. -/
theorem readsAll_of_verify {g : Engine} {k : Key} {messages signatures : List Bytes}
    (h : g.verify k messages signatures = .ok ()) :
    checkShape k messages signatures = .ok () ∧
      ∃ a r s R, g.cache.lookup messages.length = some a ∧ ReadsAll signatures r s R := by
  simp only [verify, bind_eq_ok] at h
  obtain ⟨u, hshape, es, hes, h⟩ := h
  obtain ⟨r, s, R, hR⟩ := readsAll_of_decodeAll hes
  split at h
  · cases h
  · next a ha => exact ⟨hshape, a, r, s, R, ha, hR⟩

end Engine

end Signet
