import Signet.Random.ChaCha
import Signet.Proofs.Random.Words

/-!
# The period of the ChaCha generator

The counter of the blocks has 64 bits, so that the words come again after `period` of them. A word that comes up once
comes up forever.
-/

namespace Signet.ChaCha.Generator

open WordSource

theorem skip_block (k : Key) (c : UInt64) : skip 16 (⟨k, c, []⟩ : Generator) = ⟨k, c + 1, []⟩ := rfl

theorem skip_blocks (k : Key) (c : UInt64) (n : Nat) :
    skip (16 * n) (⟨k, c, []⟩ : Generator) = ⟨k, c + UInt64.ofNat n, []⟩ := by
  induction n generalizing c with
  | zero => simp [skip]
  | succ n ih =>
    rw [Nat.mul_succ, Nat.add_comm, skip_add, skip_block, ih, UInt64.add_assoc, UInt64.ofNat_add, UInt64.add_comm 1]
    rfl

theorem skip_period (key : Bytes) : skip period (ofKey key) = ofKey key := by
  rw [period, Nat.mul_comm, ofKey, skip_blocks]
  rfl

theorem ahead_mod (key : Bytes) (p : Nat) : ahead p (ofKey key) = ahead (p % period) (ofKey key) := by
  rw [ahead, ahead, skip_mod (skip_period key)]

/-- A number of the parity of `start + 1` is met again within every cycle of even length. -/
theorem exists_mod_eq {half start t : Nat} (hpos : 0 < half) (hparity : (start + 1) % 2 = t % 2) :
    ∃ i < half, (start + (2 * i + 1)) % (2 * half) = t % (2 * half) := by
  obtain ⟨d, hd⟩ : ∃ d, t + 2 * half * (start + 1) = start + 1 + 2 * d := by
    refine ⟨(t + 2 * half * (start + 1) - (start + 1)) / 2, ?_⟩
    have hle : start + 1 ≤ half * (start + 1) := Nat.le_mul_of_pos_left _ hpos
    rw [Nat.mul_assoc]
    omega
  refine ⟨d % half, Nat.mod_lt d hpos, ?_⟩
  have hdiv : 2 * half * (d / half) + 2 * (d % half) = 2 * d := by
    rw [Nat.mul_assoc, ← Nat.mul_add, Nat.div_add_mod]
  have hsum : start + (2 * (d % half) + 1) + 2 * half * (d / half) = t + 2 * half * (start + 1) := by omega
  rw [← Nat.add_mul_mod_self_left _ (2 * half) (d / half), hsum, Nat.add_mul_mod_self_left]

/-- If a word that is at most `b` comes up after an even number of words, and one after an odd number, such words keep
coming. -/
theorem recurs_ofKey {key : Bytes} {b p q : Nat} (hp : ahead (2 * p) (ofKey key) ≤ b)
    (hq : ahead (2 * q + 1) (ofKey key) ≤ b) : Recurs b (ofKey key) := by
  intro start
  -- The word to wait for: it lies an even number of words after the one next to `start`.
  obtain ⟨t, hparity, ht⟩ : ∃ t, (start + 1) % 2 = t % 2 ∧ ahead t (ofKey key) ≤ b := by
    rcases Nat.mod_two_eq_zero_or_one (start + 1) with h | h
    · exact ⟨2 * p, by omega, hp⟩
    · exact ⟨2 * q + 1, by omega, hq⟩
  have hhalf : 0 < UInt64.size * 8 := by decide
  have hperiod : period = 2 * (UInt64.size * 8) := by
    rw [period]
    omega
  obtain ⟨i, hi, hmod⟩ := exists_mod_eq hhalf hparity
  rw [← hperiod] at hmod
  refine ⟨i, by omega, ?_⟩
  rwa [ahead_mod, hmod, ← ahead_mod]

/-- With the key of 32 zero bytes, two words that are small enough are in the blocks 40 and 144. -/
theorem recurs_ofKey_zero : Recurs 3178087 (ofKey (List.replicate 32 0)) := by
  refine recurs_ofKey (p := 16 * 20 + 1) (q := 16 * 72 + 7) ?_ ?_
  · rw [ahead, show 2 * (16 * 20 + 1) = 16 * 40 + 2 from rfl, skip_add, ofKey, skip_blocks]
    decide +kernel
  · rw [ahead, show 2 * (16 * 72 + 7) + 1 = 16 * 144 + 15 from rfl, skip_add, ofKey, skip_blocks]
    decide +kernel

end Signet.ChaCha.Generator
