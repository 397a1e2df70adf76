import Signet.Proofs.Bytes
import Signet.Text.Blank
import Mathlib.Data.List.Basic
import Mathlib.Data.List.DropRight

/-!
# Texts in UTF-8

A text is written character by character. A character below 128 is a single byte; all bytes of any other one are at
least 128. So the white space in front of a text and the rest of it are written one after the other, and white space has
neither a NUL byte nor a hyphen.
-/

namespace Signet

namespace Bytes

theorem ofString_ofList (cs : List Char) : ofString (String.ofList cs) = cs.flatMap String.utf8EncodeChar := by
  rw [ofString, String.toUTF8_eq_toByteArray, String.toByteArray_ofList, List.utf8Encode, List.toList_data_toByteArray]

theorem ofString_append (s t : String) : ofString (s ++ t) = ofString s ++ ofString t := by
  have happend := ofString_ofList (s.toList ++ t.toList)
  rw [List.flatMap_append, ← ofString_ofList, ← ofString_ofList] at happend
  simpa using happend

theorem ofString_of_toString? {b : Bytes} {s : String} (h : toString? b = some s) : ofString s = b := by
  unfold toString? String.fromUTF8? at h
  split at h
  · cases h
    rfl
  · cases h

theorem utf8EncodeChar_of_lt {c : Char} (h : c.toNat < 128) : String.utf8EncodeChar c = [UInt8.ofNat c.toNat] :=
  if_pos (Nat.le_of_lt_succ h)

/-- A byte with some of the low bits of a number below the mark of its place. -/
theorem le_toNat_ofNat {base k : Nat} (hbase : 128 ≤ base) (hk : 0 < k) (hfits : k + base ≤ 256) (n : Nat) :
    128 ≤ (UInt8.ofNat (n % k + base)).toNat := by
  have hlt := Nat.mod_lt n hk
  rw [UInt8.toNat_ofNat', Nat.mod_eq_of_lt (by omega)]
  omega

theorem le_of_mem_utf8EncodeChar {c : Char} (h : 128 ≤ c.toNat) {x : UInt8} (hx : x ∈ String.utf8EncodeChar c) :
    128 ≤ x.toNat := by
  have hlong : ¬c.val.toNat ≤ 127 := Nat.not_le_of_lt h
  rw [String.utf8EncodeChar, if_neg hlong] at hx
  split at hx
  · -- two bytes
    rcases List.mem_pair.mp hx with rfl | rfl <;> exact le_toNat_ofNat (by decide) (by decide) (by decide) _
  · split at hx
    · -- three bytes
      simp only [List.mem_cons, List.not_mem_nil, or_false] at hx
      rcases hx with rfl | rfl | rfl <;> exact le_toNat_ofNat (by decide) (by decide) (by decide) _
    · -- four bytes
      simp only [List.mem_cons, List.not_mem_nil, or_false] at hx
      rcases hx with rfl | rfl | rfl | rfl <;> exact le_toNat_ofNat (by decide) (by decide) (by decide) _

/-- The text that has a character for each byte. -/
def ascii (b : Bytes) : String := String.ofList (b.map fun x => Char.ofNat x.toNat)

theorem ofString_ascii {b : Bytes} (h : ∀ x ∈ b, x.toNat < 128) : ofString (ascii b) = b := by
  rw [ascii, ofString_ofList, List.flatMap_map]
  induction b with
  | nil => rfl
  | cons x b ih =>
    obtain ⟨hx, hb⟩ := List.forall_mem_cons.mp h
    have hvalid : x.toNat.isValidChar := .inl (by omega)
    have hchar : (Char.ofNat x.toNat).toNat = x.toNat := by
      rw [Char.ofNat, dif_pos hvalid]
      exact UInt32.toNat_ofNatLT ..
    have hbyte : String.utf8EncodeChar (Char.ofNat x.toNat) = [x] := by
      rw [utf8EncodeChar_of_lt (by rwa [hchar]), hchar, UInt8.ofNat_toNat]
    rw [List.flatMap_cons, hbyte, ih hb, List.singleton_append]

theorem toString?_of_lt {b : Bytes} (h : ∀ x ∈ b, x.toNat < 128) : toString? b = some (ascii b) := by
  have hread := toString?_ofString (ascii b)
  rwa [ofString_ascii h] at hread

end Bytes

namespace Text

/-- The white space in front of a text. -/
def leading (s : String) : String := String.ofList (s.toList.takeWhile isBlank)

theorem ofString_leading_append (s : String) :
    Bytes.ofString (leading s) ++ Bytes.ofString (trimStart s) = Bytes.ofString s := by
  rw [leading, trimStart, Bytes.ofString_ofList, Bytes.ofString_ofList, ← List.flatMap_append,
    List.takeWhile_append_dropWhile, ← Bytes.ofString_ofList, String.ofList_toList]

theorem trimStart_ascii_cons_of_blank {x : UInt8} (hx : isBlank (Char.ofNat x.toNat) = true) (b : Bytes) :
    trimStart (Bytes.ascii (x :: b)) = trimStart (Bytes.ascii b) := by
  rw [trimStart, trimStart, Bytes.ascii, Bytes.ascii, String.toList_ofList, String.toList_ofList, List.map_cons,
    List.dropWhile_cons_of_pos hx]

theorem trimStart_ascii_cons {x : UInt8} (hx : isBlank (Char.ofNat x.toNat) = false) (b : Bytes) :
    trimStart (Bytes.ascii (x :: b)) = Bytes.ascii (x :: b) := by
  have hne : ¬isBlank (Char.ofNat x.toNat) = true := hx ▸ Bool.false_ne_true
  rw [trimStart, Bytes.ascii, String.toList_ofList, List.map_cons, List.dropWhile_cons_of_neg hne]

theorem trimStart_trimStart (s : String) : trimStart (trimStart s) = trimStart s := by
  rw [trimStart, trimStart, String.toList_ofList, List.dropWhile_idempotent]

theorem ne_of_mem_utf8EncodeChar {c : Char} (h : isBlank c = true) {x : UInt8} (hx : x ∈ String.utf8EncodeChar c) :
    x ≠ 0 ∧ x ≠ 45 := by
  by_cases hc : c.toNat < 128
  · rw [Bytes.utf8EncodeChar_of_lt hc, List.mem_singleton] at hx
    have hvalue : x.toNat = c.toNat := by
      rw [hx, UInt8.toNat_ofNat']
      omega
    simp only [isBlank, Bool.or_eq_true, Bool.and_eq_true, decide_eq_true_eq, beq_iff_eq] at h
    constructor <;> (rintro rfl; simp at hvalue; omega)
  · have hlarge := Bytes.le_of_mem_utf8EncodeChar (Nat.le_of_not_lt hc) hx
    constructor <;> (rintro rfl; simp at hlarge)

theorem ne_of_mem_leading {s : String} {x : UInt8} (hx : x ∈ Bytes.ofString (leading s)) : x ≠ 0 ∧ x ≠ 45 := by
  rw [leading, Bytes.ofString_ofList] at hx
  obtain ⟨c, hc, hx⟩ := List.mem_flatMap.mp hx
  exact ne_of_mem_utf8EncodeChar (List.mem_takeWhile_imp hc) hx

end Text

end Signet
