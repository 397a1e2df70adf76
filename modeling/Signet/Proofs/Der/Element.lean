import Signet.Der.Integer
import Signet.Proofs.Bytes
import Mathlib.Tactic.Ring

/-!
# Reading what was written

An element with a known tag and a content that is not too long is read back from its written form, whatever follows
it. So are rows of such elements and natural numbers.
-/

namespace Signet.Der

theorem lt_pow_shortBytes (n : Nat) : n < 256 ^ (n.log2 / 8 + 1) := by
  calc n < 2 ^ (n.log2 + 1) := Nat.lt_log2_self
    _ ≤ 2 ^ (8 * (n.log2 / 8 + 1)) := Nat.pow_le_pow_right (by omega) (by omega)
    _ = 256 ^ (n.log2 / 8 + 1) := by rw [Nat.pow_mul]

theorem toNat_shortBytes (n : Nat) : Bytes.toNat (shortBytes n) = n := by
  rw [shortBytes, Bytes.toNat_ofNat, Nat.mod_eq_of_lt (lt_pow_shortBytes n)]

theorem log2_lt_of_lt {n k : Nat} (hk : 0 < k) (h : n < 2 ^ k) : n.log2 < k := by
  by_cases hn : n = 0
  · simpa [hn] using hk
  · exact (Nat.log2_lt hn).mpr h

theorem length_shortBytes_le {n : Nat} (h : n ≤ maxLength) : (shortBytes n).length ≤ 4 := by
  rw [shortBytes, Bytes.length_ofNat]
  have : n.log2 < 28 := log2_lt_of_lt (by omega) (by simp only [maxLength] at h; omega)
  omega

theorem length?_encodeLength {n : Nat} (h : n ≤ maxLength) (b : Bytes) : length? (encodeLength n ++ b) = some (n, b) := by
  by_cases hs : n < 128
  · have hx : UInt8.ofNat n < 128 := by
      rw [UInt8.lt_iff_toNat_lt, UInt8.toNat_ofNat']
      simp only [UInt8.toNat_ofNat]
      omega
    have hn : (UInt8.ofNat n).toNat = n := by
      rw [UInt8.toNat_ofNat']
      omega
    simp [encodeLength, hs, length?, hx, hn]
  · have hl := length_shortBytes_le h
    have hx : (UInt8.ofNat (128 + (shortBytes n).length)).toNat = 128 + (shortBytes n).length := by
      rw [UInt8.toNat_ofNat']
      omega
    have hge : ¬UInt8.ofNat (128 + (shortBytes n).length) < 128 := by
      rw [UInt8.lt_iff_toNat_lt, hx]
      simp only [UInt8.toNat_ofNat]
      omega
    rw [encodeLength, if_neg hs, List.cons_append, length?, if_neg hge]
    simp only [hx, Nat.add_sub_cancel_left, List.take_left', List.drop_left', toNat_shortBytes]
    rw [if_pos ⟨hl, h, by rw [encodeLength, if_neg hs]⟩]

namespace Element

/-- An element that can be written: its tag is known and its content is not too long. -/
structure Fits (e : Element) : Prop where
  known : isKnownTag e.tag = true
  short : e.content.length ≤ maxLength

end Element

theorem element?_encode {e : Element} (h : e.Fits) (b : Bytes) : element? (e.encode ++ b) = some (e, b) := by
  have hl := length?_encodeLength h.short (e.content ++ b)
  rw [Element.encode, List.append_assoc, List.cons_append, element?, if_pos h.known, hl]
  simp

theorem elements?_encodeAll {es : List Element} (h : ∀ e ∈ es, e.Fits) : elements? (encodeAll es) = some es := by
  induction es with
  | nil => rw [encodeAll, elements?]; rfl
  | cons e es ih =>
    obtain ⟨he, hes⟩ := List.forall_mem_cons.mp h
    have hne : e.encode ++ encodeAll es ≠ [] := by simp [Element.encode]
    have hel := element?_encode he (encodeAll es)
    rw [encodeAll, List.flatMap_cons, ← encodeAll, elements?, if_neg hne]
    split
    · next hnone => rw [hel] at hnone; cases hnone
    · next heq =>
      rw [hel, Option.some.injEq, Prod.mk.injEq] at heq
      obtain ⟨rfl, rfl⟩ := heq
      rw [ih hes, Option.map_some]

namespace Element

theorem ofBytes?_encode {e : Element} (h : e.Fits) : ofBytes? e.encode = some e := by
  have := element?_encode h []
  rw [List.append_nil] at this
  rw [ofBytes?, this]

theorem parts?_node {t : UInt8} {es : List Element} (h : ∀ e ∈ es, e.Fits) : (node t es).parts? t = some es := by
  have htag : (node t es).tag = t := rfl
  rw [parts?, content?, if_pos htag]
  exact elements?_encodeAll h

theorem length_encodeLength_le {n : Nat} (h : n ≤ maxLength) : (encodeLength n).length ≤ 5 := by
  have := length_shortBytes_le h
  rw [encodeLength]
  split
  · simp
  · simp only [List.length_cons]
    omega

theorem length_encode_le {e : Element} (h : e.Fits) : e.encode.length ≤ e.content.length + 6 := by
  have := length_encodeLength_le h.short
  rw [encode, List.length_append, List.length_cons]
  omega

end Element

theorem length_encodeAll_le {es : List Element} {n : Nat} (h : ∀ e ∈ es, e.encode.length ≤ n) :
    (encodeAll es).length ≤ es.length * n := by
  induction es with
  | nil => exact Nat.zero_le _
  | cons e es ih =>
    obtain ⟨he, hes⟩ := List.forall_mem_cons.mp h
    have := ih hes
    rw [encodeAll, List.flatMap_cons, ← encodeAll, List.length_append, List.length_cons, Nat.succ_mul]
    omega

namespace Element

/-- An element that can be written with a content of at most `n` bytes. -/
def FitsWithin (e : Element) (n : Nat) : Prop := e.Fits ∧ e.content.length ≤ n

variable {m n : Nat}

theorem FitsWithin.of_content {e : Element} (hknown : isKnownTag e.tag = true) (h : e.content.length ≤ n)
    (hn : n ≤ maxLength) : e.FitsWithin n := ⟨⟨hknown, h.trans hn⟩, h⟩

theorem FitsWithin.mono {e : Element} (h : e.FitsWithin n) (hm : n ≤ m) : e.FitsWithin m := ⟨h.1, h.2.trans hm⟩

theorem FitsWithin.node {t : UInt8} {es : List Element} (hknown : isKnownTag t = true) (h : ∀ e ∈ es, e.FitsWithin n)
    (hm : es.length * (n + 6) ≤ m) (hmax : m ≤ maxLength) : (node t es).FitsWithin m := by
  refine of_content hknown ((length_encodeAll_le fun e he => ?_).trans hm) hmax
  obtain ⟨hfits, hlength⟩ := h e he
  exact (length_encode_le hfits).trans (Nat.add_le_add_right hlength 6)

theorem fits_sequence {es : List Element} (h : ∀ e ∈ es, e.FitsWithin n) (hn : es.length * (n + 6) ≤ maxLength) :
    (sequence es).Fits := (FitsWithin.node rfl h le_rfl hn).1

end Element

/-! ## Natural numbers -/

theorem natOfContent?_natContent (n : Nat) : natOfContent? (natContent n) = some n := by
  have hlt : n < 256 ^ ((n.log2 + 1) / 8 + 1) :=
    calc n < 2 ^ (n.log2 + 1) := Nat.lt_log2_self
      _ ≤ 2 ^ (8 * ((n.log2 + 1) / 8 + 1)) := Nat.pow_le_pow_right (by omega) (by omega)
      _ = 256 ^ ((n.log2 + 1) / 8 + 1) := by rw [Nat.pow_mul]
  have h : Bytes.toNat (natContent n) = n := by rw [natContent, Bytes.toNat_ofNat, Nat.mod_eq_of_lt hlt]
  simp only [natOfContent?, h, if_true]

namespace Element

theorem nat?_ofNat (n : Nat) : (ofNat n).nat? = some n := natOfContent?_natContent n

theorem length_natContent_le {n : Nat} (h : n < 2 ^ 256) : (natContent n).length ≤ 33 := by
  rw [natContent, Bytes.length_ofNat]
  have : n.log2 < 256 := log2_lt_of_lt (by omega) h
  omega

theorem fits_ofNat {n : Nat} (h : n < 2 ^ 256) : (ofNat n).Fits :=
  ⟨rfl, (length_natContent_le h).trans (by decide)⟩

end Element

end Signet.Der
