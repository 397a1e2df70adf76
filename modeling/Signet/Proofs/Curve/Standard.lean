import Signet.Proofs.Curve.Order
import Signet.Proofs.Curve.Remainder
import Signet.Proofs.Modular.Primality

/-!
# The two curves of the suites

Both curves are elliptic curves over a prime field, and their groups have the prime order of the base point.
-/

namespace Signet.Curve

/-- Whether certificates show that the base point of a curve generates its group, and that there is a prime number
of points. -/
def certifies (C : Curve) (steps : List Modular.PrimeStep) (g : Remainder) : Bool :=
  Modular.PrimeStep.check [] steps && (steps.map (·.prime)).contains C.p && (steps.map (·.prime)).contains C.n &&
    C.p != 2 && (4 * C.a ^ 3 + 27 * C.b ^ 2) % C.p != 0 && C.contains C.gx C.gy &&
    C.mul C.n C.base == .infinity && 2 * C.p + 1 < 3 * C.n && g.mul C (.frobeniusSub C) == ⟨1, 0, 0⟩

theorem hasPrimeOrder_of_certifies {C : Curve} {steps : List Modular.PrimeStep} {g : Remainder}
    (h : certifies C steps g = true) : C.HasPrimeOrder := by
  simp only [certifies, Bool.and_eq_true, decide_eq_true_eq, bne_iff_ne, beq_iff_eq, List.contains_iff_mem,
    List.mem_map] at h
  obtain ⟨⟨⟨⟨⟨⟨⟨⟨hsteps, s, hs, hp⟩, t, ht, hn⟩, hodd⟩, hsing⟩, hbase⟩, hmul⟩, hlt⟩, hg⟩ := h
  have hprime := Modular.PrimeStep.prime_of_check (by simp) hsteps
  have hpp : C.p.Prime := hp ▸ hprime s hs
  have hnp : C.n.Prime := hn ▸ hprime t ht
  have hC : C.IsElliptic := ⟨hpp, hodd, hsing⟩
  exact { prime_n := hnp, lies_base := hbase, card_eq := card_eq_of_base hnp hbase hmul hlt (rhs_ne_zero hg) }

/-- The primes of P-256. -/
def p256Primes : List Modular.PrimeStep := [
  ⟨6700417, 5, [2, 2, 2, 2, 2, 2, 2, 3, 17449]⟩,
  ⟨204061199, 11, [2, 11, 23, 107, 3769]⟩,
  ⟨34282281433, 17, [2, 2, 2, 3, 7, 204061199]⟩,
  ⟨66417393611, 6, [2, 5, 53, 173, 197, 3677]⟩,
  ⟨11290956913871, 13, [2, 5, 17, 66417393611]⟩,
  ⟨46076956964474543, 5, [2, 23, 18169, 78283, 704251]⟩,
  ⟨774023187263532362759620327192479577272145303, 3,
    [2, 3, 3, 2411, 34282281433, 11290956913871, 46076956964474543]⟩,
  ⟨835945042244614951780389953367877943453916927241, 11,
    [2, 2, 2, 3, 3, 3, 5, 774023187263532362759620327192479577272145303]⟩,
  ⟨115792089210356248762697446949407573530086143415290314195533631308867097853951, 6,
    [2, 3, 5, 5, 17, 257, 641, 1531, 65537, 490463, 6700417,
      835945042244614951780389953367877943453916927241]⟩,
  ⟨9350987, 2, [2, 17, 229, 1201]⟩,
  ⟨187019741, 2, [2, 2, 5, 9350987]⟩,
  ⟨311245691, 2, [2, 5, 7, 17, 29, 29, 311]⟩,
  ⟨622491383, 5, [2, 311245691]⟩,
  ⟨3969899, 2, [2, 19, 104471]⟩,
  ⟨1002328039319, 19, [2, 126241, 3969899]⟩,
  ⟨191039911, 3, [2, 3, 5, 41, 155317]⟩,
  ⟨208150935158385979, 2, [2, 3, 11, 43, 127, 3023, 191039911]⟩,
  ⟨2624747550333869278416773953, 7, [2, 2, 2, 2, 2, 2, 3, 3, 1297, 16879, 208150935158385979]⟩,
  ⟨115792089210356248762697446949407573529996955224135760342422259061068512044369, 7,
    [2, 2, 2, 2, 3, 71, 131, 373, 3407, 17449, 38189, 187019741, 622491383, 1002328039319,
      2624747550333869278416773953]⟩]

/-- The inverse of `xᵖ - x` modulo the cubic polynomial of P-256. -/
def p256Inverse : Remainder where
  c₀ := 0xa969487079f1744798bf0de6fded091b66e9d328eb0645fe5d979d1339b7f47f
  c₁ := 0xa4a08891884100c13323460107a8d28eede4387fa3e6e9bfebec9f6d72d0b5cc
  c₂ := 0x4cde11cf86cb876cd59cf0115813c55af0ecd3cda667d98bb9a347a56aa74a6d

instance : p256.HasPrimeOrder := hasPrimeOrder_of_certifies (show certifies p256 p256Primes p256Inverse = true by decide +kernel)

/-- The primes of the curve of the SM2 algorithms. -/
def sm2Primes : List Modular.PrimeStep := [
  ⟨348253387243, 3, [2, 3, 61, 5303, 179429]⟩,
  ⟨3017783777, 3, [2, 2, 2, 2, 2, 7, 7, 337, 5711]⟩,
  ⟨4641351449027, 2, [2, 769, 3017783777]⟩,
  ⟨8214737, 3, [2, 2, 2, 2, 67, 79, 97]⟩,
  ⟨417514796639753, 3, [2, 2, 2, 7, 367, 2473, 8214737]⟩,
  ⟨3079049, 3, [2, 2, 2, 7, 54983]⟩,
  ⟨6158099, 2, [2, 3079049]⟩,
  ⟨4773264379806847, 3, [2, 3, 7, 11, 823, 34511, 363761]⟩,
  ⟨66013261729388519804782124120027, 2, [2, 13, 1213, 71209, 6158099, 4773264379806847]⟩,
  ⟨115792089210356248756420345214020892766250353991924191454421193933289684991999, 13,
    [2, 43, 30223, 348253387243, 4641351449027, 417514796639753, 66013261729388519804782124120027]⟩,
  ⟨117774739, 2, [2, 3, 3, 59, 110899]⟩,
  ⟨1413296869, 6, [2, 2, 3, 117774739]⟩,
  ⟨10042883, 2, [2, 1013, 4957]⟩,
  ⟨2368433183657, 3, [2, 2, 2, 41, 719, 10042883]⟩,
  ⟨3258964060712033, 3, [2, 2, 2, 2, 2, 43, 2368433183657]⟩,
  ⟨17965699, 2, [2, 3, 71, 181, 233]⟩,
  ⟨107615843, 2, [2, 43, 103, 12149]⟩,
  ⟨2566129871, 7, [2, 5, 3049, 84163]⟩,
  ⟨9061163, 2, [2, 11, 71, 5801]⟩,
  ⟨5636460199499, 2, [2, 31, 79, 127, 9061163]⟩,
  ⟨101456283590983, 3, [2, 3, 3, 5636460199499]⟩,
  ⟨18120927127286907576013935251791662753637, 6,
    [2, 2, 3, 3, 17965699, 107615843, 2566129871, 101456283590983]⟩,
  ⟨125197554539772723432468576818475380947471091418362477724521, 3,
    [2, 2, 2, 5, 53, 3258964060712033, 18120927127286907576013935251791662753637]⟩,
  ⟨115792089210356248756420345214020892766061623724957744567843809356293439045923, 3,
    [2, 3, 7759, 14057, 1413296869, 125197554539772723432468576818475380947471091418362477724521]⟩]

/-- The inverse of `xᵖ - x` modulo the cubic polynomial of the curve of the SM2 algorithms. -/
def sm2Inverse : Remainder where
  c₀ := 0xeb9539fb12a69fa8a00429afc717f1319f0c8d5b6b742939772c4ea8ae886749
  c₁ := 0xbbea3c6e4f9890bc31aef1ce9abbeaf4847d5c84bfa4437849cb29256264e8b1
  c₂ := 0x4eacc0d01f9e2a10d4f0056c0628ef26e06a3759ce9c5557561509c6fc21376f

instance : sm2.HasPrimeOrder := hasPrimeOrder_of_certifies (show certifies sm2 sm2Primes sm2Inverse = true by decide +kernel)

end Signet.Curve
