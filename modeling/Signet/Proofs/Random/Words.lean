import Signet.Random.Words
import Mathlib.Data.Nat.Log
import Mathlib.Tactic.Linarith

/-!
# Numbers below a bound

A number that is drawn below a bound lies below it. Drawing ends if small words keep coming, since a small word counts
for every bound.
-/

namespace Signet.WordSource

variable {σ : Type} [WordSource σ]

theorem word_lt (s : σ) : (word s).1 < 2 ^ 32 := (next s).1.toNat_lt

theorem doubleWord_lt (s : σ) : (doubleWord s).1 < 2 ^ 64 := by
  have hlo : (next s).1.toNat < 2 ^ 32 := (next s).1.toNat_lt
  have hhi : (next (next s).2).1.toNat < 2 ^ 32 := (next (next s).2).1.toNat_lt
  simp only [doubleWord, UInt32.size]
  omega

omit [WordSource σ] in
theorem lt_of_firstBelow? {draw : σ → Nat × σ} {width m tries j : Nat} {s t : σ}
    (hdraw : ∀ s, (draw s).1 < 2 ^ width) (hm : 0 < m) (h : firstBelow? draw width m tries s = some (j, t)) :
    j < m := by
  induction tries generalizing s with
  | zero => cases h
  | succ tries ih =>
    rw [firstBelow?] at h
    split at h
    · cases h
      rw [Nat.shiftRight_eq_div_pow]
      exact Nat.div_lt_of_lt_mul (Nat.mul_lt_mul_of_pos_right (hdraw s) hm)
    · exact ih h

theorem lt_of_below? {m j : Nat} {s t : σ} (hm : 0 < m) (h : below? m s = some (j, t)) : j < m :=
  lt_of_firstBelow? word_lt hm h

theorem lt_of_wideBelow? {m j : Nat} {s t : σ} (hm : 0 < m) (h : wideBelow? m s = some (j, t)) : j < m :=
  lt_of_firstBelow? doubleWord_lt hm h

/-! ## Drawing ends -/

/-- The source after `k` words. -/
def skip : (k : Nat) → σ → σ
  | 0, s => s
  | k + 1, s => skip k (next s).2

theorem skip_add (j k : Nat) (s : σ) : skip (j + k) s = skip k (skip j s) := by
  induction j generalizing s with
  | zero => rw [Nat.zero_add, skip]
  | succ j ih => rw [Nat.succ_add, skip, ih, skip]

/-- The word after `k` words. -/
def ahead (k : Nat) (s : σ) : Nat := (next (skip k s)).1.toNat

/-- From everywhere on, a word that is at most `b` comes within a period, after an odd number of words. -/
def Recurs (b : Nat) (s : σ) : Prop := ∀ p, ∃ i, 2 * i + 1 < period ∧ ahead (p + (2 * i + 1)) s ≤ b

theorem Recurs.after {b : Nat} {s : σ} (h : Recurs b s) (k : Nat) : Recurs b (skip k s) := by
  intro p
  obtain ⟨i, hi, hword⟩ := h (k + p)
  refine ⟨i, hi, ?_⟩
  rwa [ahead, Nat.add_assoc, skip_add] at hword

/-- The zone covers at least half of the numbers of its width. -/
theorem le_zone {width m : Nat} (hm : 0 < m) (hlt : m < 2 ^ width) : 2 ^ width ≤ 2 * (zone width m + 1) := by
  have hlog : m.log2 < width := (Nat.log2_lt hm.ne').mpr hlt
  have hself : 2 ^ m.log2 ≤ m := Nat.log2_self_le hm.ne'
  have hshift : 2 ^ m.log2 * 2 ^ (width - (m.log2 + 1)) ≤ m * 2 ^ (width - (m.log2 + 1)) :=
    Nat.mul_le_mul_right _ hself
  have hpow : 2 * (2 ^ m.log2 * 2 ^ (width - (m.log2 + 1))) = 2 ^ width := by
    rw [← Nat.pow_add, ← Nat.pow_succ']
    congr 1
    omega
  rw [zone, Nat.shiftLeft_eq]
  omega

/-- The number that is drawn counts for the bound `m`. -/
def Counts (draw : σ → Nat × σ) (width m : Nat) (s : σ) : Prop := (draw s).1 * m % (1 <<< width) ≤ zone width m

section Tries

variable {draw : σ → Nat × σ} {width m tries c : Nat} (hnext : ∀ s, (draw s).2 = skip c s) {s : σ}

include hnext

/-- Drawing ends at a number that counts, if one of the draws that are tried yields one. -/
theorem exists_firstBelow? (h : ∃ i < tries, Counts draw width m (skip (c * i) s)) :
    ∃ j k, firstBelow? draw width m tries s = some (j, skip k s) := by
  induction tries generalizing s with
  | zero =>
    obtain ⟨i, hi, -⟩ := h
    exact absurd hi (Nat.not_lt_zero i)
  | succ tries ih =>
    rw [firstBelow?]
    split
    · exact ⟨_, c, by rw [hnext]⟩
    · next hout =>
      obtain ⟨i, hi, hin⟩ := h
      cases i with
      | zero => exact absurd hin hout
      | succ i =>
        rw [Nat.mul_succ, Nat.add_comm, skip_add] at hin
        obtain ⟨j, k, hj⟩ := ih ⟨i, Nat.lt_of_succ_lt_succ hi, hin⟩
        exact ⟨j, c + k, by rw [hnext, hj, skip_add]⟩

theorem exists_counts_of_firstBelow? {r : Nat × σ} (h : firstBelow? draw width m tries s = some r) :
    ∃ i, Counts draw width m (skip (c * i) s) := by
  induction tries generalizing s with
  | zero => cases h
  | succ tries ih =>
    rw [firstBelow?] at h
    split at h
    · next hin => exact ⟨0, hin⟩
    · rw [hnext] at h
      obtain ⟨i, hi⟩ := ih h
      refine ⟨i + 1, ?_⟩
      rwa [Nat.mul_succ, Nat.add_comm, skip_add]

end Tries

variable {b m : Nat}

theorem Recurs.exists_below? {s : σ} (h : Recurs b s) (hm : 0 < m) (hb : (b + 1) * m ≤ 2 ^ 31) :
    ∃ j t, below? m s = some (j, t) ∧ Recurs b t := by
  obtain ⟨i, hi, hword⟩ := h 0
  rw [Nat.zero_add] at hword
  have hzone : 2 ^ 32 ≤ 2 * (zone 32 m + 1) := le_zone hm (by nlinarith)
  have hin : (word (skip (1 * (2 * i + 1)) s)).1 * m ≤ zone 32 m := by
    rw [Nat.one_mul]
    have hle : ahead (2 * i + 1) s * m ≤ b * m := Nat.mul_le_mul_right m hword
    have hsum : (b + 1) * m = b * m + m := Nat.succ_mul b m
    exact hle.trans (by omega)
  obtain ⟨j, k, hj⟩ := exists_firstBelow? (fun _ => rfl) ⟨2 * i + 1, hi, (Nat.mod_le _ _).trans hin⟩
  exact ⟨j, skip k s, hj, h.after k⟩

theorem Recurs.exists_wideBelow? {s : σ} (h : Recurs b s) (hm : 0 < m) (hb : (b + 1) * m ≤ 2 ^ 31) :
    ∃ j t, wideBelow? m s = some (j, t) ∧ Recurs b t := by
  obtain ⟨i, hi, hword⟩ := h 0
  rw [Nat.zero_add, ahead, skip_add] at hword
  have hzone : 2 ^ 64 ≤ 2 * (zone 64 m + 1) := le_zone hm (by nlinarith)
  have hin : (doubleWord (skip (2 * i) s)).1 * m ≤ zone 64 m := by
    have hlo : (next (skip (2 * i) s)).1.toNat < 2 ^ 32 := (next (skip (2 * i) s)).1.toNat_lt
    have hhi : (next (next (skip (2 * i) s)).2).1.toNat ≤ b := hword
    -- The high word is small, so that the whole number is.
    have hvalue : (doubleWord (skip (2 * i) s)).1 + 1 ≤ 2 ^ 32 * (b + 1) := by
      simp only [doubleWord, UInt32.size]
      omega
    have hle := Nat.mul_le_mul_right m hvalue
    have hsum : ((doubleWord (skip (2 * i) s)).1 + 1) * m = (doubleWord (skip (2 * i) s)).1 * m + m :=
      Nat.succ_mul ..
    rw [Nat.mul_assoc] at hle
    omega
  obtain ⟨j, k, hj⟩ := exists_firstBelow? (fun _ => rfl)
    ⟨i, Nat.lt_of_le_of_lt (by omega) hi, (Nat.mod_le _ _).trans hin⟩
  exact ⟨j, skip k s, hj, h.after k⟩

/-! ## Sources that start again -/

theorem skip_mul {n : Nat} {s : σ} (h : skip n s = s) (k : Nat) : skip (n * k) s = s := by
  induction k with
  | zero => rfl
  | succ k ih => rw [Nat.mul_succ, skip_add, ih, h]

theorem skip_mod {n : Nat} {s : σ} (h : skip n s = s) (k : Nat) : skip (k % n) s = skip k s := by
  conv_rhs => rw [← Nat.div_add_mod k n, skip_add, skip_mul h]

theorem skip_skip {n : Nat} {s : σ} (h : skip n s = s) (k : Nat) : skip n (skip k s) = skip k s := by
  rw [← skip_add, Nat.add_comm, skip_add, h]

/-- Drawing for the bound `m` does not end, however many draws are tried. -/
def Endless (draw : σ → Nat × σ) (width m : Nat) (s : σ) : Prop := ∀ tries, firstBelow? draw width m tries s = none

/-- A source that starts again has shown all its words within a period, so that no more draws need to be tried. -/
theorem exists_of_not_endless {draw : σ → Nat × σ} {width m c : Nat} (hnext : ∀ s, (draw s).2 = skip c s) {s : σ}
    (hs : skip period s = s) (h : ¬Endless draw width m s) :
    ∃ j k, firstBelow? draw width m period s = some (j, skip k s) := by
  obtain ⟨tries, htries⟩ := not_forall.mp h
  obtain ⟨r, hr⟩ := Option.ne_none_iff_exists'.mp htries
  obtain ⟨i, hi⟩ := exists_counts_of_firstBelow? hnext hr
  have hpos : 0 < period := by decide
  have hround : skip (c * period) s = s := by rw [Nat.mul_comm, skip_mul hs]
  have hsame : skip (c * (i % period)) s = skip (c * i) s := by rw [← Nat.mul_mod_mul_left, skip_mod hround]
  exact exists_firstBelow? hnext ⟨i % period, Nat.mod_lt i hpos, hsame ▸ hi⟩

theorem skip_bits (n : Nat) (s : σ) : (bits n s).2 = skip n s := by
  induction n generalizing s with
  | zero => rfl
  | succ n ih => exact ih _

theorem length_bits (n : Nat) (s : σ) : (bits n s).1.length = n := by
  induction n generalizing s with
  | zero => rfl
  | succ n ih => exact congrArg (· + 1) (ih _)

end Signet.WordSource
