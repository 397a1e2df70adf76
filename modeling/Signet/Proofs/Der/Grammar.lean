import Signet.Proofs.Der.Canonical

/-!
# The grammar of strict DER

Lengths, elements and natural numbers by rules of their own, apart from the functions that write and read them. A rule
says that as few bytes as possible are used, so that it has exactly one solution: what is written.
-/

namespace Signet.Der

/-- The bytes of a length: one byte below 128, or the number of the bytes that follow, the first of which is not 0. -/
inductive IsLength : Nat → Bytes → Prop
  | short {x : UInt8} (h : x < 0x80) : IsLength x.toNat [x]
  | long {x : UInt8} {b : Bytes} (hx : x ≠ 0) (hfew : b.length < 126) (h : 128 ≤ Bytes.toNat (x :: b)) :
      IsLength (Bytes.toNat (x :: b)) (UInt8.ofNat (128 + (x :: b).length) :: x :: b)

/-- The bytes of an element with the given tag and content. -/
def IsElement (tag : UInt8) (content b : Bytes) : Prop :=
  ∃ length, IsLength content.length length ∧ b = tag :: length ++ content

/-- The content of an integer that is not negative: the high bit of the first byte is clear, and a first byte 0 is only
there to keep it clear. -/
structure IsNatural (n : Nat) (content : Bytes) : Prop where
  ne_nil : content ≠ []
  value : Bytes.toNat content = n
  positive : ∀ x b, content = x :: b → x < 0x80
  shortest : ∀ y b, content = 0 :: y :: b → 0x80 ≤ y

/-- A row of integers that are not negative. -/
inductive IsNaturals : List Nat → Bytes → Prop
  | nil : IsNaturals [] []
  | cons {n : Nat} {ns : List Nat} {content b c : Bytes} (hn : IsNatural n content) (hb : IsElement integerTag content b)
      (hc : IsNaturals ns c) : IsNaturals (n :: ns) (b ++ c)

/-- A sequence of integers that are not negative. -/
def IsNaturalSequence (ns : List Nat) (b : Bytes) : Prop := ∃ c, IsNaturals ns c ∧ IsElement sequenceTag c b

/-! ## Lengths and elements -/

theorem one_le_toNat {x : UInt8} (hx : x ≠ 0) : 1 ≤ x.toNat := by
  have : x.toNat ≠ 0 := fun h => hx (UInt8.toNat_inj.mp h)
  omega

theorem pow_eq (k : Nat) : 256 ^ k = 2 ^ (8 * k) := by rw [Nat.pow_mul]

theorem log2_cons {x : UInt8} (hx : x ≠ 0) (b : Bytes) : (Bytes.toNat (x :: b)).log2 / 8 = b.length := by
  have hlt : Bytes.toNat (x :: b) < 2 ^ (8 * (b.length + 1)) := by
    rw [← pow_eq]
    exact Bytes.toNat_lt (x :: b)
  have hge : 2 ^ (8 * b.length) ≤ Bytes.toNat (x :: b) := by
    have h := Bytes.le_toNat_cons_iff (b := b).mpr (one_le_toNat hx)
    rwa [Nat.one_mul, pow_eq] at h
  have hne : Bytes.toNat (x :: b) ≠ 0 := by
    have := Nat.two_pow_pos (8 * b.length)
    omega
  have hupper := (Nat.log2_lt hne).mpr hlt
  have hlower := (Nat.le_log2 hne).mpr hge
  omega

theorem shortBytes_toNat {x : UInt8} (hx : x ≠ 0) (b : Bytes) : shortBytes (Bytes.toNat (x :: b)) = x :: b := by
  rw [shortBytes, log2_cons hx]
  exact Bytes.ofNat_toNat (x :: b)

theorem IsLength.eq_encodeLength {n : Nat} {l : Bytes} (h : IsLength n l) : l = encodeLength n := by
  cases h with
  | @short x h =>
    have hlt : x.toNat < 128 := h
    rw [encodeLength, if_pos hlt, UInt8.ofNat_toNat]
  | @long x b hx hfew h =>
    rw [encodeLength, if_neg (by omega), shortBytes_toNat hx]

theorem shortBytes_eq_cons {n : Nat} (hn : n ≠ 0) : ∃ x b, x ≠ 0 ∧ shortBytes n = x :: b := by
  have hlength : (shortBytes n).length = n.log2 / 8 + 1 := Bytes.length_ofNat ..
  obtain ⟨x, b, hxb⟩ := List.exists_cons_of_length_eq_add_one hlength
  refine ⟨x, b, ?_, hxb⟩
  rintro rfl
  have hvalue := toNat_shortBytes n
  rw [hxb] at hvalue hlength
  have hlt : n < 2 ^ (8 * b.length) := by
    have h : Bytes.toNat (0 :: b) < 1 * 256 ^ b.length := Bytes.toNat_cons_lt_iff.mpr Nat.one_pos
    rwa [hvalue, Nat.one_mul, pow_eq] at h
  have hupper := (Nat.log2_lt hn).mpr hlt
  rw [List.length_cons] at hlength
  omega

theorem isLength_encodeLength {n : Nat} (h : n ≤ maxLength) : IsLength n (encodeLength n) := by
  rw [encodeLength]
  split
  · next hlt =>
    have hx : (UInt8.ofNat n).toNat = n := by
      rw [UInt8.toNat_ofNat']
      omega
    have hshort : UInt8.ofNat n < 0x80 := by
      rw [UInt8.lt_iff_toNat_lt, hx]
      exact hlt
    simpa only [hx] using IsLength.short hshort
  · next hge =>
    obtain ⟨x, b, hx, hxb⟩ := shortBytes_eq_cons (n := n) (by omega)
    have hfew := length_shortBytes_le h
    have hvalue := toNat_shortBytes n
    rw [hxb] at hfew hvalue ⊢
    rw [List.length_cons] at hfew
    simpa only [hvalue] using IsLength.long hx (b := b) (by omega) (by omega)

theorem isElement_iff {tag : UInt8} {content b : Bytes} (h : content.length ≤ maxLength) :
    IsElement tag content b ↔ b = Element.encode ⟨tag, content⟩ := by
  constructor
  · rintro ⟨l, hl, rfl⟩
    rw [hl.eq_encodeLength, Element.encode]
  · rintro rfl
    exact ⟨encodeLength content.length, isLength_encodeLength h, rfl⟩

/-! ## Natural numbers -/

theorem toNat_natContent (n : Nat) : Bytes.toNat (natContent n) = n := by
  have h := natOfContent?_natContent n
  simp only [natOfContent?, Option.ite_none_right_eq_some, Option.some.injEq] at h
  exact h.2

theorem pow_eq_half (k : Nat) : 128 * 256 ^ k = 2 ^ (8 * k + 7) := by
  rw [Nat.pow_add, ← pow_eq, Nat.mul_comm]

/-- The length of the content is the one that the number asks for: the high bit is clear, and it would not be clear, or
not 0, in one byte less. -/
theorem IsNatural.length_eq {n : Nat} {x : UInt8} {b : Bytes} (h : IsNatural n (x :: b)) :
    (n.log2 + 1) / 8 = b.length := by
  have hlt : n < 2 ^ (8 * b.length + 7) := by
    rw [← pow_eq_half, ← h.value]
    exact Bytes.toNat_cons_lt_iff.mpr (h.positive x b rfl)
  cases b with
  | nil =>
    by_cases hn : n = 0
    · subst hn
      rfl
    · have hupper := (Nat.log2_lt hn).mpr hlt
      simp only [List.length_nil] at hupper ⊢
      omega
  | cons y b =>
    have hge : 2 ^ (8 * b.length + 7) ≤ n := by
      rw [← h.value]
      by_cases hx : x = 0
      · subst hx
        have hy : 128 ≤ y.toNat := h.shortest y b rfl
        have hle := Bytes.le_toNat_cons_iff (b := b).mpr hy
        rw [pow_eq_half] at hle
        rw [Bytes.toNat_cons]
        exact hle.trans (Nat.le_add_left _ _)
      · have hle := Bytes.le_toNat_cons_iff (b := y :: b).mpr (one_le_toNat hx)
        rw [Nat.one_mul, pow_eq, List.length_cons] at hle
        exact (Nat.pow_le_pow_right (by decide) (by omega)).trans hle
    have hn : n ≠ 0 := by
      have := Nat.two_pow_pos (8 * b.length + 7)
      omega
    have hupper := (Nat.log2_lt hn).mpr hlt
    have hlower := (Nat.le_log2 hn).mpr hge
    rw [List.length_cons] at hupper ⊢
    omega

theorem IsNatural.eq_natContent {n : Nat} {c : Bytes} (h : IsNatural n c) : c = natContent n := by
  obtain ⟨x, b, rfl⟩ := List.exists_cons_of_ne_nil h.ne_nil
  rw [natContent, h.length_eq, ← h.value]
  exact (Bytes.ofNat_toNat (x :: b)).symm

theorem isNatural_natContent (n : Nat) : IsNatural n (natContent n) := by
  have hlength : (natContent n).length = (n.log2 + 1) / 8 + 1 := Bytes.length_ofNat ..
  have hvalue := toNat_natContent n
  constructor
  case ne_nil =>
    intro hnil
    rw [hnil] at hlength
    cases hlength
  case value => exact hvalue
  case positive =>
    intro x b hxb
    rw [hxb] at hvalue hlength
    rw [List.length_cons] at hlength
    have hlt : n < 128 * 256 ^ b.length := by
      rw [pow_eq_half]
      exact Nat.lt_log2_self.trans_le (Nat.pow_le_pow_right (by decide) (by omega))
    rw [← hvalue] at hlt
    exact Bytes.toNat_cons_lt_iff.mp hlt
  case shortest =>
    intro y b hyb
    rw [hyb] at hvalue hlength
    rw [List.length_cons, List.length_cons] at hlength
    have hn : n ≠ 0 := by
      rintro rfl
      simp at hlength
    have hge : 128 * 256 ^ b.length ≤ n := by
      rw [pow_eq_half]
      exact (Nat.le_log2 hn).mp (by omega)
    have hrest : Bytes.toNat (0 :: y :: b) = Bytes.toNat (y :: b) := by
      rw [Bytes.toNat_cons]
      simp
    rw [← hvalue, hrest] at hge
    exact Bytes.le_toNat_cons_iff.mp hge

theorem isNatural_iff {n : Nat} {c : Bytes} : IsNatural n c ↔ c = natContent n :=
  ⟨IsNatural.eq_natContent, fun h => h ▸ isNatural_natContent n⟩

/-! ## Sequences of natural numbers -/

theorem isNaturals_iff {ns : List Nat} (hns : ∀ n ∈ ns, n < 2 ^ 256) {b : Bytes} :
    IsNaturals ns b ↔ b = encodeAll (ns.map .ofNat) := by
  have hshort : ∀ n < 2 ^ 256, (natContent n).length ≤ maxLength := fun n hn =>
    (Element.length_natContent_le hn).trans (by decide)
  constructor
  · intro h
    induction h with
    | nil => rfl
    | @cons n ns content b c hn hb hc ih =>
      obtain ⟨hlt, hns⟩ := List.forall_mem_cons.mp hns
      obtain rfl := isNatural_iff.mp hn
      rw [ih hns, (isElement_iff (hshort n hlt)).mp hb]
      rfl
  · rintro rfl
    induction ns with
    | nil => exact .nil
    | cons n ns ih =>
      obtain ⟨hlt, hns⟩ := List.forall_mem_cons.mp hns
      exact .cons (isNatural_natContent n) ((isElement_iff (hshort n hlt)).mpr rfl) (ih hns)

theorem isNaturalSequence_iff {ns : List Nat} (hns : ∀ n ∈ ns, n < 2 ^ 256) (hfew : ns.length ≤ 4) {b : Bytes} :
    IsNaturalSequence ns b ↔ b = (Element.sequence (ns.map .ofNat)).encode := by
  have hfits : (Element.sequence (ns.map .ofNat)).Fits := by
    refine Element.fits_sequence (n := 33) (fun e he => ?_) ?_
    · obtain ⟨n, hn, rfl⟩ := List.mem_map.mp he
      exact ⟨Element.fits_ofNat (hns n hn), Element.length_natContent_le (hns n hn)⟩
    · rw [List.length_map, maxLength]
      omega
  constructor
  · rintro ⟨c, hc, hb⟩
    obtain rfl := (isNaturals_iff hns).mp hc
    exact (isElement_iff hfits.short).mp hb
  · rintro rfl
    exact ⟨_, (isNaturals_iff hns).mpr rfl, (isElement_iff hfits.short).mpr rfl⟩

end Signet.Der
