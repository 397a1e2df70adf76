import Signet.Proofs.Der.Canonical
import Signet.Proofs.Der.Record
import Mathlib.Data.List.Flatten

/-!
# Records that were read

An object identifier, a string, an algorithm identifier or a public key record is read from its own element only, so
nothing of it is lost. Where a record has several elements that it is read from, what counts is that its own one is not
longer: the last section compares the lengths of elements and rows.
-/

namespace Signet.Der

/-! ## Strings and identifiers -/

theorem BitString.eq_content_of_ofContent? {b : Bytes} {s : BitString} (h : ofContent? b = some s) :
    b = s.content ∧ s.IsValid := by
  unfold ofContent? at h
  split at h
  · cases h
  · next u b =>
    split at h
    · cases h
    · next hunused =>
      cases h
      obtain ⟨hle, hbytes⟩ := not_or.mp hunused
      exact ⟨rfl, UInt8.not_lt.mp hle, fun hne hnil => hbytes ⟨hne, hnil⟩⟩

namespace Element

theorem oid?_eq_some {e : Element} {o : Oid} : e.oid? = some o ↔ e = ofOid o := by
  constructor
  · intro h
    obtain ⟨b, hb, ho⟩ := Option.bind_eq_some_iff.mp h
    unfold Oid.ofContent? at ho
    split at ho
    · cases ho
      exact content?_eq_some.mp hb
    · cases ho
  · rintro rfl
    exact oid?_ofOid o

theorem octets?_eq_some {e : Element} {b : Bytes} : e.octets? = some b ↔ e = ofOctets b := content?_eq_some

theorem explicit?_eq_some {n : UInt8} {e part : Element} :
    e.explicit? n = some part ↔ e.parts? (constructedTag n) = some [part] := by
  rw [explicit?, Option.bind_eq_bind, Option.bind_eq_some_iff]
  constructor
  · rintro ⟨ps, hps, hread⟩
    split at hread
    · cases hread
      exact hps
    · cases hread
  · intro hps
    exact ⟨[part], hps, rfl⟩

theorem bool?_eq_some {e : Element} {v : Bool} : e.bool? = some v ↔ e = ofBool v := by
  obtain ⟨tag, content⟩ := e
  simp only [bool?, ofBool, mk.injEq]
  by_cases htag : tag = booleanTag
  · by_cases htrue : content = [0xff]
    · cases v <;> simp [htag, htrue]
    · by_cases hfalse : content = [0] <;> cases v <;> simp [htag, htrue, hfalse]
  · simp [htag]

theorem eq_ofBitString_of_bitString? {e : Element} {s : BitString} (h : e.bitString? = some s) :
    e = ofBitString s ∧ s.IsValid := by
  obtain ⟨b, hb, hs⟩ := Option.bind_eq_some_iff.mp h
  obtain ⟨rfl, hvalid⟩ := BitString.eq_content_of_ofContent? hs
  exact ⟨content?_eq_some.mp hb, hvalid⟩

end Element

/-! ## Algorithms and keys -/

theorem AlgorithmIdentifier.eq_toElement_of_ofElement? {e : Element} {a : AlgorithmIdentifier}
    (h : ofElement? e = some a) : e = a.toElement ∧ a.IsValid := by
  obtain ⟨ps, hps, hread⟩ := Option.bind_eq_some_iff.mp h
  obtain ⟨hfits, he⟩ := Element.parts?_eq_some.mp hps
  rw [he]
  split at hread
  · next o =>
    obtain ⟨i, hi, hread⟩ := Option.bind_eq_some_iff.mp hread
    cases hread
    rw [Element.oid?_eq_some.mp hi]
    exact ⟨rfl, nofun⟩
  · next o p =>
    obtain ⟨i, hi, hread⟩ := Option.bind_eq_some_iff.mp hread
    cases hread
    rw [Element.oid?_eq_some.mp hi]
    refine ⟨rfl, ?_⟩
    rintro p ⟨⟩
    exact (hfits p (by simp)).known
  · cases hread

theorem PublicKeyInfo.eq_toElement_of_ofElement? {e : Element} {k : PublicKeyInfo} (h : ofElement? e = some k) :
    e = k.toElement ∧ k.IsValid := by
  obtain ⟨ps, hps, hread⟩ := Option.bind_eq_some_iff.mp h
  obtain ⟨-, he⟩ := Element.parts?_eq_some.mp hps
  rw [he]
  split at hread
  · next a s =>
    simp only [Option.bind_eq_bind, Option.bind_eq_some_iff] at hread
    obtain ⟨algorithm, ha, key, hs, hread⟩ := hread
    cases hread
    obtain ⟨rfl, halgorithm⟩ := AlgorithmIdentifier.eq_toElement_of_ofElement? ha
    obtain ⟨rfl, hkey⟩ := Element.eq_ofBitString_of_bitString? hs
    exact ⟨rfl, halgorithm, hkey⟩
  · cases hread

/-! ## Optional fields -/

/-- No field has a smaller number than the first one. -/
theorem eq_append_of_field?_zero {es rest : List Element} {field : Option Element} (h : field? 0 es = (field, rest)) :
    es = field.toList ++ rest := by
  cases es with
  | nil =>
    cases h
    rfl
  | cons e es =>
    rw [field?, if_neg fun hlt => absurd hlt.2 (UInt8.not_lt.mpr (UInt8.zero_le))] at h
    split at h
    · cases h
      rfl
    · cases h
      rfl

theorem sublist_of_field? {n : UInt8} {es rest : List Element} {field : Option Element}
    (h : field? n es = (field, rest)) : (field.toList ++ rest).Sublist es := by
  induction es with
  | nil =>
    cases h
    exact .slnil
  | cons e es ih =>
    rw [field?] at h
    split at h
    · exact (ih h).cons e
    · split at h
      · cases h
        exact .refl _
      · cases h
        exact .refl _

/-- In a row with the given tags at most, none is passed over on the way to the first of them. -/
theorem exists_field?_of_sublist {t : UInt8} {ts : List UInt8} {es : List Element}
    (h : (es.map Element.tag).Sublist (t :: ts)) (ht : isField t = true)
    (hts : ∀ u ∈ ts, fieldNumber t < fieldNumber u) :
    ∃ field rest, es = field.toList ++ rest ∧ field? (fieldNumber t) es = (field, rest) ∧
      (∀ f ∈ field, f.tag = t) ∧ (rest.map Element.tag).Sublist ts := by
  obtain ⟨field, rest, rfl, hfield, hrest⟩ : ∃ (field : Option Element) (rest : List Element),
      es = field.toList ++ rest ∧ (∀ f ∈ field, f.tag = t) ∧ (rest.map Element.tag).Sublist ts := by
    rcases List.sublist_cons_iff.mp h with hrest | ⟨us, hmap, hrest⟩
    · exact ⟨none, es, rfl, nofun, hrest⟩
    · obtain ⟨e, es, rfl, rfl, rfl⟩ := List.map_eq_cons_iff.mp hmap
      exact ⟨some e, es, rfl, by rintro f ⟨⟩; rfl, hrest⟩
  refine ⟨field, rest, rfl, field?_append (fun f hf => ?_) fun e he _ => ?_, hfield, hrest⟩
  · rw [hfield f hf]
    exact ⟨ht, rfl⟩
  · exact hts _ (hrest.subset (List.mem_map_of_mem he))

/-! ## Lengths -/

theorem log2_le_log2 {m n : Nat} (h : m ≤ n) : m.log2 ≤ n.log2 := by
  by_cases hm : m = 0
  · rw [hm, Nat.log2_zero]
    exact Nat.zero_le _
  · exact (Nat.le_log2 (by omega)).mpr ((Nat.log2_self_le hm).trans h)

theorem length_encodeLength_mono {m n : Nat} (h : m ≤ n) : (encodeLength m).length ≤ (encodeLength n).length := by
  have hlog := Nat.div_le_div_right (c := 8) (log2_le_log2 h)
  simp only [encodeLength, shortBytes]
  split <;> split
  · simp
  · simp
  · omega
  · simp only [List.length_cons, Bytes.length_ofNat]
    omega

namespace Element

theorem length_encode_mono {e f : Element} (h : e.content.length ≤ f.content.length) :
    e.encode.length ≤ f.encode.length := by
  have hlength := length_encodeLength_mono h
  simp only [encode, List.length_append, List.length_cons]
  omega

theorem length_node_mono {t u : UInt8} {es fs : List Element} (h : (encodeAll es).length ≤ (encodeAll fs).length) :
    (node t es).encode.length ≤ (node u fs).encode.length := length_encode_mono h

end Element

theorem length_encodeAll_of_sublist {es fs : List Element} (h : es.Sublist fs) :
    (encodeAll es).length ≤ (encodeAll fs).length := (h.flatMap Element.encode).length_le

theorem length_encodeAll_of_forall₂ {es fs : List Element}
    (h : List.Forall₂ (fun e f => e.encode.length ≤ f.encode.length) es fs) :
    (encodeAll es).length ≤ (encodeAll fs).length := by
  induction h with
  | nil => exact le_rfl
  | cons he _ ih =>
    simp only [encodeAll, List.flatMap_cons, List.length_append] at ih ⊢
    omega

end Signet.Der
