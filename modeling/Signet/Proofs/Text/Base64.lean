import Signet.Proofs.Text.Utf8
import Signet.Text.Base64

/-!
# Base64 text

Three bytes are four symbols, and fewer bytes are padded. Each group is read back on its own, and it is the only one that
is read as its bytes. So a byte string has one written form, a text of visible characters.
-/

namespace Signet.Base64

theorem symbolValue?_symbol : ∀ n < 64, symbolValue? (symbol n) = some n := by decide

theorem symbol_ne_pad : ∀ n < 64, symbol n ≠ pad := by decide

/-- The bits of a byte, put together from two symbols. -/
theorem ofNat_eq {n : Nat} {x : UInt8} (h : n = x.toNat) : UInt8.ofNat n = x := by
  rw [h, UInt8.ofNat_toNat]

theorem toNat_ofNat_of_lt {n : Nat} (h : n < 256) : (UInt8.ofNat n).toNat = n := UInt8.toNat_ofNat_of_lt' h

theorem decode?_encode (b : Bytes) : decode? (encode b) = some b := by
  fun_induction encode b with
  | case1 => rfl
  | case2 x =>
    have hx := x.toNat_lt
    have h₁ := symbolValue?_symbol (x.toNat / 4) (by omega)
    have h₂ := symbolValue?_symbol (x.toNat % 4 * 16) (by omega)
    have hzero : x.toNat % 4 * 16 % 16 = 0 := by omega
    have hbyte : UInt8.ofNat (x.toNat / 4 * 4 + x.toNat % 4 * 16 / 16) = x := ofNat_eq (by omega)
    simp only [decode?, decodePadded, h₁, h₂, hzero, hbyte, Option.bind_eq_bind, Option.bind_some, if_true, ne_eq,
      not_true_eq_false, if_false]
  | case3 x y =>
    have hx := x.toNat_lt
    have hy := y.toNat_lt
    have h₁ := symbolValue?_symbol (x.toNat / 4) (by omega)
    have h₂ := symbolValue?_symbol (x.toNat % 4 * 16 + y.toNat / 16) (by omega)
    have h₃ := symbolValue?_symbol (y.toNat % 16 * 4) (by omega)
    have hpad := symbol_ne_pad (y.toNat % 16 * 4) (by omega)
    have hzero : y.toNat % 16 * 4 % 4 = 0 := by omega
    have hbyte₁ : UInt8.ofNat (x.toNat / 4 * 4 + (x.toNat % 4 * 16 + y.toNat / 16) / 16) = x := ofNat_eq (by omega)
    have hbyte₂ : UInt8.ofNat ((x.toNat % 4 * 16 + y.toNat / 16) % 16 * 16 + y.toNat % 16 * 4 / 4) = y :=
      ofNat_eq (by omega)
    simp only [decode?, decodePadded, h₁, h₂, h₃, hpad, hzero, hbyte₁, hbyte₂, Option.bind_eq_bind, Option.bind_some,
      if_true, ne_eq, not_true_eq_false, if_false]
  | case4 x y z rest ih =>
    have hx := x.toNat_lt
    have hy := y.toNat_lt
    have hz := z.toNat_lt
    have h₁ := symbolValue?_symbol (x.toNat / 4) (by omega)
    have h₂ := symbolValue?_symbol (x.toNat % 4 * 16 + y.toNat / 16) (by omega)
    have h₃ := symbolValue?_symbol (y.toNat % 16 * 4 + z.toNat / 64) (by omega)
    have h₄ := symbolValue?_symbol (z.toNat % 64) (by omega)
    have hpad := symbol_ne_pad (z.toNat % 64) (by omega)
    have hbyte₁ : UInt8.ofNat (x.toNat / 4 * 4 + (x.toNat % 4 * 16 + y.toNat / 16) / 16) = x := ofNat_eq (by omega)
    have hbyte₂ : UInt8.ofNat ((x.toNat % 4 * 16 + y.toNat / 16) % 16 * 16 + (y.toNat % 16 * 4 + z.toNat / 64) / 4) = y :=
      ofNat_eq (by omega)
    have hbyte₃ : UInt8.ofNat ((y.toNat % 16 * 4 + z.toNat / 64) % 4 * 64 + z.toNat % 64) = z := ofNat_eq (by omega)
    simp only [decode?, hpad, if_false, h₁, h₂, h₃, h₄, ih, hbyte₁, hbyte₂, hbyte₃, Option.bind_eq_bind,
      Option.bind_some]
    rfl

/-- A character that neither ends a line nor starts one of the marks around a block. -/
def IsPlain (c : UInt8) : Prop := c ≠ 10 ∧ c ≠ 13 ∧ c ≠ 45

instance (c : UInt8) : Decidable (IsPlain c) := by unfold IsPlain; infer_instance

theorem isPlain_symbol : ∀ n < 64, IsPlain (symbol n) := by decide

theorem isPlain_pad : IsPlain pad := by decide

/-- What holds of all symbols and of the padding holds of all characters that are written. -/
theorem forall_mem_encode {P : UInt8 → Prop} (hsymbol : ∀ n < 64, P (symbol n)) (hpad : P pad) (b : Bytes) :
    ∀ c ∈ encode b, P c := by
  fun_induction encode b with
  | case1 => exact nofun
  | case2 x =>
    have hx := x.toNat_lt
    simp only [List.forall_mem_cons]
    exact ⟨hsymbol _ (by omega), hsymbol _ (by omega), hpad, hpad, nofun⟩
  | case3 x y =>
    have hx := x.toNat_lt
    have hy := y.toNat_lt
    simp only [List.forall_mem_cons]
    exact ⟨hsymbol _ (by omega), hsymbol _ (by omega), hsymbol _ (by omega), hpad, nofun⟩
  | case4 x y z rest ih =>
    have hx := x.toNat_lt
    have hy := y.toNat_lt
    have hz := z.toNat_lt
    simp only [List.forall_mem_cons]
    exact ⟨hsymbol _ (by omega), hsymbol _ (by omega), hsymbol _ (by omega), hsymbol _ (by omega), ih⟩

theorem isPlain_of_mem_encode {b : Bytes} : ∀ c ∈ encode b, IsPlain c := forall_mem_encode isPlain_symbol isPlain_pad b

theorem lt_of_mem_encode {b : Bytes} : ∀ c ∈ encode b, c.toNat < 128 :=
  forall_mem_encode (show ∀ n < 64, (symbol n).toNat < 128 by decide) (by decide) b

/-! ## Text that is read -/

theorem symbol_of_symbolValue? {c : UInt8} {n : Nat} (h : symbolValue? c = some n) : n < 64 ∧ symbol n = c := by
  have hall : ∀ i : Fin 256, ∀ n ∈ symbolValue? (UInt8.ofFin i), n < 64 ∧ symbol n = UInt8.ofFin i := by
    decide +kernel
  exact hall c.toFin n h

theorem encode_of_decodePadded {a b c content} (h : decodePadded a b c pad = some content) :
    encode content = [a, b, c, pad] := by
  simp only [decodePadded, Option.bind_eq_bind, Option.bind_eq_some_iff] at h
  obtain ⟨x, hx, y, hy, h⟩ := h
  obtain ⟨hxlt, rfl⟩ := symbol_of_symbolValue? hx
  obtain ⟨hylt, rfl⟩ := symbol_of_symbolValue? hy
  rw [if_neg (by simp)] at h
  split at h
  · next hc =>
    simp only [Option.ite_none_right_eq_some, Option.some.injEq] at h
    obtain ⟨hzero, rfl⟩ := h
    have hbyte : (UInt8.ofNat (x * 4 + y / 16)).toNat = x * 4 + y / 16 := toNat_ofNat_of_lt (by omega)
    have h₁ : (x * 4 + y / 16) / 4 = x := by omega
    have h₂ : (x * 4 + y / 16) % 4 * 16 = y := by omega
    rw [encode, hbyte, h₁, h₂, hc]
  · simp only [Option.bind_eq_some_iff, Option.ite_none_right_eq_some, Option.some.injEq] at h
    obtain ⟨z, hz, hzero, rfl⟩ := h
    obtain ⟨hzlt, rfl⟩ := symbol_of_symbolValue? hz
    have hbyte₁ : (UInt8.ofNat (x * 4 + y / 16)).toNat = x * 4 + y / 16 := toNat_ofNat_of_lt (by omega)
    have hbyte₂ : (UInt8.ofNat (y % 16 * 16 + z / 4)).toNat = y % 16 * 16 + z / 4 := toNat_ofNat_of_lt (by omega)
    have h₁ : (x * 4 + y / 16) / 4 = x := by omega
    have h₂ : (x * 4 + y / 16) % 4 * 16 + (y % 16 * 16 + z / 4) / 16 = y := by omega
    have h₃ : (y % 16 * 16 + z / 4) % 16 * 4 = z := by omega
    rw [encode, hbyte₁, hbyte₂, h₁, h₂, h₃]

theorem encode_of_decode? {s content : Bytes} (h : decode? s = some content) : encode content = s := by
  fun_induction decode? s generalizing content with
  | case1 =>
    cases h
    rfl
  | case2 a b c => exact encode_of_decodePadded h
  | case3 => cases h
  | case4 a b c d rest hd ih =>
    simp only [Option.bind_eq_bind, Option.bind_eq_some_iff] at h
    obtain ⟨w, hw, x, hx, y, hy, z, hz, tail, htail, h⟩ := h
    obtain ⟨hwlt, rfl⟩ := symbol_of_symbolValue? hw
    obtain ⟨hxlt, rfl⟩ := symbol_of_symbolValue? hx
    obtain ⟨hylt, rfl⟩ := symbol_of_symbolValue? hy
    obtain ⟨hzlt, rfl⟩ := symbol_of_symbolValue? hz
    cases h
    have hbyte₁ : (UInt8.ofNat (w * 4 + x / 16)).toNat = w * 4 + x / 16 := toNat_ofNat_of_lt (by omega)
    have hbyte₂ : (UInt8.ofNat (x % 16 * 16 + y / 4)).toNat = x % 16 * 16 + y / 4 := toNat_ofNat_of_lt (by omega)
    have hbyte₃ : (UInt8.ofNat (y % 4 * 64 + z)).toNat = y % 4 * 64 + z := toNat_ofNat_of_lt (by omega)
    have h₁ : (w * 4 + x / 16) / 4 = w := by omega
    have h₂ : (w * 4 + x / 16) % 4 * 16 + (x % 16 * 16 + y / 4) / 16 = x := by omega
    have h₃ : (x % 16 * 16 + y / 4) % 16 * 4 + (y % 4 * 64 + z) / 64 = y := by omega
    have h₄ : (y % 4 * 64 + z) % 64 = z := by omega
    rw [encode, hbyte₁, hbyte₂, hbyte₃, h₁, h₂, h₃, h₄, ih htail]
  | case5 => cases h

/-- A byte string has exactly one written form. -/
theorem decode?_eq_some {s content : Bytes} : decode? s = some content ↔ s = encode content :=
  ⟨fun h => (encode_of_decode? h).symm, fun h => h ▸ decode?_encode content⟩

theorem ofString_encodeText (b : Bytes) : Bytes.ofString (encodeText b) = encode b := Bytes.ofString_ascii lt_of_mem_encode

theorem decodeText?_eq_some {s : String} {b : Bytes} : decodeText? s = some b ↔ s = encodeText b := by
  rw [decodeText?, decode?_eq_some]
  constructor
  · intro h
    have hread := Bytes.toString?_ofString s
    rw [h, Bytes.toString?_of_lt lt_of_mem_encode] at hread
    exact (Option.some.inj hread).symm
  · rintro rfl
    exact ofString_encodeText b

theorem isPlain_of_symbolValue? {c : UInt8} {n : Nat} (h : symbolValue? c = some n) : IsPlain c := by
  refine ⟨?_, ?_, ?_⟩
  all_goals
    rintro rfl
    cases h

theorem isPlain_of_decodePadded {a b c d : UInt8} {content : Bytes} (h : decodePadded a b c d = some content) :
    IsPlain a ∧ IsPlain b ∧ IsPlain c ∧ IsPlain d := by
  simp only [decodePadded, Option.bind_eq_bind, Option.bind_eq_some_iff] at h
  obtain ⟨x, hx, y, hy, h⟩ := h
  refine ⟨isPlain_of_symbolValue? hx, isPlain_of_symbolValue? hy, ?_⟩
  split at h
  · cases h
  · next hd =>
    rw [Decidable.not_not.mp hd]
    split at h
    · next hc =>
      rw [hc]
      exact ⟨isPlain_pad, isPlain_pad⟩
    · obtain ⟨z, hz, -⟩ := Option.bind_eq_some_iff.mp h
      exact ⟨isPlain_of_symbolValue? hz, isPlain_pad⟩

theorem isPlain_of_decode? {s content : Bytes} (h : decode? s = some content) : ∀ c ∈ s, IsPlain c := by
  fun_induction decode? s generalizing content with
  | case1 => exact nofun
  | case2 a b c =>
    obtain ⟨ha, hb, hc, hd⟩ := isPlain_of_decodePadded h
    simp only [List.forall_mem_cons]
    exact ⟨ha, hb, hc, hd, nofun⟩
  | case3 => cases h
  | case4 a b c d rest hd ih =>
    simp only [Option.bind_eq_bind, Option.bind_eq_some_iff] at h
    obtain ⟨w, hw, x, hx, y, hy, z, hz, tail, htail, -⟩ := h
    simp only [List.forall_mem_cons]
    exact ⟨isPlain_of_symbolValue? hw, isPlain_of_symbolValue? hx, isPlain_of_symbolValue? hy,
      isPlain_of_symbolValue? hz, ih htail⟩
  | case5 => cases h

end Signet.Base64
