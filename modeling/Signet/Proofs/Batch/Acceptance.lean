import Signet.Proofs.Batch.Equation
import Signet.Proofs.Key.Validity

/-!
# Which batches are accepted

A batch is accepted exactly when its lists have the same length, every signature is read as an entry, the cache has a
schedule of the size, and the weighted equations hold together.
-/

namespace Signet

open Curve

theorem Key.Valid.exists_point {k : Key} (h : k.Valid) (hs : k.suite = .ecdsaP256) :
    ∃ Q : p256.Group, (Q : Point) = k.point := by
  have hl := h.lies
  rw [hs] at hl
  exact ⟨⟨k.point, hl⟩, rfl⟩

namespace Engine

theorem inv_mul_mod {s : Nat} (h1 : 1 ≤ s) (hn : s < p256.n) : Modular.inv p256.n s * s % p256.n = 1 := by
  have hs : (s : ZMod p256.n) ≠ 0 := by
    rw [Ne, ZMod.natCast_eq_zero_iff]
    exact Nat.not_dvd_of_pos_of_lt h1 hn
  have hn1 : 1 < p256.n := by decide
  refine Modular.eq_of_cast_eq (Nat.mod_lt _ (by omega)) hn1 ?_
  rw [ZMod.natCast_mod, Nat.cast_mul, Modular.cast_inv (by decide), inv_mul_cancel₀ hs, Nat.cast_one]

theorem nsmul_eq_ephemeral {w s : Nat} (h : w * s % p256.n = 1) (Q : p256.Group) (e r : Nat) :
    w • (e • generator p256 + r • Q) = Signing.Ecdsa.ephemeral Q e r s := by
  have hw : (w : ZMod p256.n) = (s : ZMod p256.n)⁻¹ := by
    refine eq_inv_of_mul_eq_one_left ?_
    rw [← Nat.cast_mul, ← ZMod.natCast_mod, h, Nat.cast_one]
  rw [← cast_smul w, hw, Signing.Ecdsa.ephemeral]

theorem sum_eq_combination {a : Schedule} {w s : Nat → Nat} (hw : ∀ i < a.size, w i * s i % p256.n = 1)
    (Q : p256.Group) (e r : Nat → Nat) :
    ∑ i ∈ Finset.range a.size, a.coefficient p256 i • w i • (e i • generator p256 + r i • Q)
      = combination a fun i => Signing.Ecdsa.ephemeral Q (e i) (r i) (s i) := by
  refine Finset.sum_congr rfl fun i hi => ?_
  rw [nsmul_eq_ephemeral (hw i (Finset.mem_range.mp hi))]

/-- Exactly the batches that the weighted equations hold for are accepted. -/
theorem verify_eq_ok_iff (g : Engine) {k : Key} (hk : k.Made) (hs : k.suite = .ecdsaP256)
    (messages signatures : List Bytes) :
    ∃ Q : p256.Group, (Q : Point) = k.point ∧
      (g.verify k messages signatures = .ok () ↔
        messages.length = signatures.length ∧ 0 < messages.length ∧
          ∃ (a : Schedule) (r s : Nat → Word256) (w : Nat → Nat) (R : Nat → p256.Group),
            g.cache.lookup messages.length = some a ∧
            (∀ i < messages.length,
              (∃ x y, Signature.ofRichDer (signatures.getD i []) = .ok ⟨r i, s i, some (x, y)⟩) ∧
              w i * (s i).val % p256.n = 1 ∧
              BatchEntry.decode p256 i (signatures.getD i []) = .ok ⟨(r i).val, w i, R i⟩) ∧
            let P := ∑ i ∈ Finset.range messages.length,
              a.coefficient p256 i • w i • (digestAt messages i • generator p256 + (r i).val • Q)
            let S := ∑ i ∈ Finset.range messages.length, a.coefficient p256 i • R i
            P ≠ 0 ∧ (P : Point).x % p256.n = (S : Point).x % p256.n) := by
  obtain ⟨Q, hQ⟩ := hk.valid.exists_point hs
  refine ⟨Q, hQ, ?_, ?_⟩
  · intro h
    obtain ⟨hshape, a, r, s, R, ha, hR⟩ := readsAll_of_verify h
    obtain ⟨-, hlen, hpos⟩ := checkShape_eq_ok.mp hshape
    have hsize := size_of_lookup ha
    have hw : ∀ i < a.size, Modular.inv p256.n (s i).val * (s i).val % p256.n = 1 := by
      intro i hi
      obtain ⟨x, y, hr, -⟩ := hR i (by omega)
      exact inv_mul_mod hr.reduced_s.1 hr.reduced_s.2
    refine ⟨hlen, hpos, a, r, s, fun i => Modular.inv p256.n (s i).val, R, ha, fun i hi => ?_, ?_⟩
    · obtain ⟨hsig, hok⟩ := (BatchEntry.decode_eq_ok_iff i).mpr ⟨rfl, hR i (by omega)⟩
      exact ⟨hsig, hw i (by omega), hok⟩
    · rw [verify_eq hQ hshape ha hR] at h
      rw [← hsize, sum_eq_combination hw]
      split at h
      · next hP => exact hP
      · cases h
  · rintro ⟨hlen, hpos, a, r, s, w, R, ha, hdec, hP⟩
    have hshape := checkShape_eq_ok.mpr ⟨hs, hlen, hpos⟩
    have hsize := size_of_lookup ha
    have hR : ReadsAll signatures r s R := by
      intro i hi
      obtain ⟨hsig, -, hok⟩ := hdec i (by omega)
      exact ((BatchEntry.decode_eq_ok_iff i).mp ⟨hsig, hok⟩).2
    have hw : ∀ i < a.size, w i * (s i).val % p256.n = 1 := fun i hi => (hdec i (by omega)).2.1
    rw [← hsize, sum_eq_combination hw] at hP
    rw [verify_eq hQ hshape ha hR]
    exact if_pos hP

/-- The engine with schedules of one and of two steps, which give every point the coefficient 2. -/
def plain : Engine :=
  { empty with
    cache := [⟨[false], [0], [], by decide, rfl, by decide, by decide⟩,
      ⟨[false, false], [0, 1], [], by decide, rfl, by decide, by decide⟩] }

/-- The batch of one signature of the empty message, with the private key 1 and the nonce 1. -/
theorem verify_eq_ok_iff_single :
    (Key.ofScalar .ecdsaP256 1).Made ∧ (Key.ofScalar .ecdsaP256 1).suite = .ecdsaP256 ∧
      ∃ (Q : p256.Group) (a : Schedule) (r s : Nat → Word256) (w : Nat → Nat),
        (Q : Point) = p256.mul 1 p256.base ∧ plain.cache.lookup 1 = some a ∧
          w 0 * (s 0).val % p256.n = 1 ∧
          (a.coefficient p256 0 • w 0 • (digestAt [[]] 0 • generator p256 + (r 0).val • Q) : p256.Group) ≠ 0 := by
  have hmade := Key.made_ofScalar .ecdsaP256 (le_refl 1) (by decide)
  obtain ⟨Q, hQ, h⟩ := verify_eq_ok_iff plain hmade rfl [[]]
    [(Key.pack p256.gx ((digestAt [[]] 0 + p256.gx) % p256.n)
      (some (Word256.ofNat p256.gx, Word256.ofNat p256.gy))).toDer]
  obtain ⟨-, -, a, r, s, w, _, ha, hread, hP, -⟩ := h.mp (by decide +kernel)
  refine ⟨hmade, rfl, Q, a, r, s, w, hQ, ha, (hread 0 Nat.one_pos).2.1, ?_⟩
  simpa using hP

end Engine

end Signet
