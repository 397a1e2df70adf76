import Signet.Modular
import Mathlib.FieldTheory.Finite.Basic

/-!
# Residues in the field

The operations on residues, which are written as natural numbers, are those of the ring of residues.
-/

namespace Signet.Modular

variable {m : Nat}

theorem pow_eq (m a e : Nat) : pow m a e = a ^ e % m := by
  induction e using Nat.strongRecOn generalizing a with
  | ind e ih =>
    rw [pow]
    split
    · next h => simp [h]
    · next h =>
      have hrec := ih (e / 2) (by omega) (a * a % m)
      have hsq : (a * a % m) ^ (e / 2) % m = a ^ (2 * (e / 2)) % m := by
        rw [← Nat.pow_mod, Nat.pow_mul, Nat.pow_two]
      split
      · next h1 =>
        rw [hrec, hsq, Nat.mod_mul_mod, ← Nat.pow_succ]
        congr 2
        omega
      · next h1 =>
        rw [hrec, hsq]
        congr 2
        omega

theorem sub_lt [NeZero m] (a b : Nat) : sub m a b < m := Nat.mod_lt _ (Nat.pos_of_neZero m)

theorem neg_lt [NeZero m] (a : Nat) : neg m a < m := Nat.mod_lt _ (Nat.pos_of_neZero m)

theorem pow_lt [NeZero m] (a e : Nat) : pow m a e < m := by
  rw [pow_eq]
  exact Nat.mod_lt _ (Nat.pos_of_neZero m)

@[simp] theorem cast_sub [NeZero m] (a b : Nat) : (sub m a b : ZMod m) = a - b := by
  have hb : b % m ≤ m := (Nat.mod_lt b (Nat.pos_of_neZero m)).le
  rw [sub, ZMod.natCast_mod, Nat.cast_add, Nat.cast_sub hb, ZMod.natCast_self, ZMod.natCast_mod]
  ring

@[simp] theorem cast_neg [NeZero m] (a : Nat) : (neg m a : ZMod m) = -a := by
  have ha : a % m ≤ m := (Nat.mod_lt a (Nat.pos_of_neZero m)).le
  rw [neg, ZMod.natCast_mod, Nat.cast_sub ha, ZMod.natCast_self, ZMod.natCast_mod, zero_sub]

@[simp] theorem cast_pow (a e : Nat) : (pow m a e : ZMod m) = a ^ e := by
  rw [pow_eq, ZMod.natCast_mod, Nat.cast_pow]

/-- The inverse of 0 is 0, as long as the prime is not 2. -/
theorem cast_inv [Fact m.Prime] (h : m ≠ 2) (a : Nat) : (inv m a : ZMod m) = (a : ZMod m)⁻¹ := by
  have h2 : 2 < m := lt_of_le_of_ne (Fact.out : m.Prime).two_le h.symm
  rw [inv, cast_pow]
  by_cases ha : (a : ZMod m) = 0
  · rw [ha, inv_zero, zero_pow (by omega)]
  · refine eq_inv_of_mul_eq_one_left ?_
    rw [← pow_succ, show m - 2 + 1 = m - 1 by omega]
    exact ZMod.pow_card_sub_one_eq_one ha

theorem eq_of_cast_eq {a b : Nat} (ha : a < m) (hb : b < m) (h : (a : ZMod m) = b) : a = b := by
  have := (ZMod.natCast_eq_natCast_iff a b m).mp h
  exact this.eq_of_lt_of_lt ha hb

theorem val_cast_of_lt {a : Nat} (ha : a < m) : (a : ZMod m).val = a := ZMod.val_cast_of_lt ha

end Signet.Modular
