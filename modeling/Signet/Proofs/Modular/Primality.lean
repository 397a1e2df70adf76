import Signet.Proofs.Modular.Residue
import Mathlib.Data.List.Prime
import Mathlib.NumberTheory.LucasPrimality

/-!
# Certificates of primality

A number is prime if some residue has the order that only a prime allows. A certificate is a row of steps; a step
names such a residue and the factors of the number before its prime, which earlier steps have shown to be prime or
which are small.
-/

namespace Signet.Modular

/-- A prime with a residue whose powers are all residues but 0, and the factors of the prime less one. -/
structure PrimeStep where
  prime : Nat
  root : Nat
  factors : List Nat

namespace PrimeStep

/-- Whether a number is one of the known primes, or a small prime. -/
def isKnown (known : List Nat) (q : Nat) : Bool := known.contains q || (q < 1000000 && 2 ≤ q && q.minFac == q)

/-- Whether a step shows that its number is prime. -/
def holds (known : List Nat) (s : PrimeStep) : Bool :=
  s.factors.all (isKnown known) && s.factors.prod + 1 == s.prime && pow s.prime s.root (s.prime - 1) == 1 &&
    s.factors.all fun q => pow s.prime s.root ((s.prime - 1) / q) != 1

/-- Whether each step of a row holds, given the known primes and those of the steps before it. -/
def check : (known : List Nat) → List PrimeStep → Bool
  | _, [] => true
  | known, s :: steps => s.holds known && check (s.prime :: known) steps

theorem prime_of_isKnown {known : List Nat} {q : Nat} (hk : ∀ p ∈ known, p.Prime) (h : isKnown known q = true) :
    q.Prime := by
  simp only [isKnown, Bool.or_eq_true, Bool.and_eq_true, decide_eq_true_eq, beq_iff_eq] at h
  rcases h with h | ⟨⟨-, h2⟩, hm⟩
  · exact hk q (List.contains_iff_mem.mp h)
  · exact Nat.prime_def_minFac.mpr ⟨h2, hm⟩

theorem cast_pow_eq_one_iff {p a e : Nat} (hp : 1 < p) : (a : ZMod p) ^ e = 1 ↔ pow p a e = 1 := by
  rw [← cast_pow, ← Nat.cast_one, ZMod.natCast_eq_natCast_iff', Nat.one_mod_eq_one.mpr (by omega), pow_eq,
    Nat.mod_mod]

theorem prime_of_holds {known : List Nat} {s : PrimeStep} (hk : ∀ p ∈ known, p.Prime) (h : s.holds known = true) :
    s.prime.Prime := by
  simp only [holds, Bool.and_eq_true, List.all_eq_true, beq_iff_eq, bne_iff_ne] at h
  obtain ⟨⟨⟨hf, hprod⟩, hroot⟩, horder⟩ := h
  have hprime : ∀ q ∈ s.factors, q.Prime := fun q hq => prime_of_isKnown hk (hf q hq)
  have hpos : s.factors.prod ≠ 0 := by
    intro h0
    exact Nat.not_prime_zero (hprime 0 (List.prod_eq_zero_iff.mp h0))
  have h1 : 1 < s.prime := by omega
  refine lucas_primality s.prime (s.root : ZMod s.prime) ((cast_pow_eq_one_iff h1).mpr hroot) ?_
  intro q hq hdvd
  have hd : q ∣ s.factors.prod := by rwa [← hprod, Nat.add_sub_cancel] at hdvd
  obtain ⟨r, hr, hqr⟩ := (Prime.dvd_prod_iff hq.prime).mp hd
  have e : q = r := (Nat.prime_dvd_prime_iff_eq hq (hprime r hr)).mp hqr
  rw [Ne, cast_pow_eq_one_iff h1, e]
  exact horder r hr

/-- The numbers of a row of steps that holds are prime. -/
theorem prime_of_check {known : List Nat} {steps : List PrimeStep} (hk : ∀ p ∈ known, p.Prime)
    (h : check known steps = true) : ∀ s ∈ steps, s.prime.Prime := by
  induction steps generalizing known with
  | nil => simp
  | cons s steps ih =>
    simp only [check, Bool.and_eq_true] at h
    have hs := prime_of_holds hk h.1
    intro t ht
    rcases List.mem_cons.mp ht with rfl | ht
    · exact hs
    · exact ih (List.forall_mem_cons.mpr ⟨hs, hk⟩) h.2 t ht

end PrimeStep

end Signet.Modular
