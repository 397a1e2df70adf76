import Signet.Proofs.Key.Encoding
import Signet.Proofs.Pem.Preamble

/-!
# Texts of keys

The text of a key is read back as the key. A key that was read from a text keeps that text without the white space in
front of it, which is read back as the key too unless the white space hid a BEGIN mark.
-/

namespace Signet.Key

/-- The PEM text of a key, with lines that end in LF. -/
def text (k : Key) : Bytes := (Pem.Block.mk k.label k.toDer).encode

theorem isLabel_label (k : Key) : Pem.isLabel k.label = true := by
  rw [label]
  split <;> decide

theorem lt_of_mem_text {k : Key} : ∀ c ∈ k.text, c.toNat < 128 := Pem.lt_of_mem_encode k.isLabel_label

theorem decode?_text (k : Key) : Pem.decode? k.text = some ⟨k.label, k.toDer⟩ := Pem.decode?_encode k.isLabel_label

theorem ofPem_of_decode? {suite : Suite} {b : Bytes} {s : String} {block : Pem.Block} (hs : Bytes.toString? b = some s)
    (hb : Pem.decode? b = some block) : ofPem suite b = ofBlock suite block (Bytes.ofString (Text.trimStart s)) := by
  rw [ofPem, hs, hb]

theorem Valid.ofPem_text {k : Key} (h : k.Valid) : ofPem k.suite k.text = .ok { k with pem := k.text } := by
  have htrim : Text.trimStart (Bytes.ascii k.text) = Bytes.ascii k.text := Pem.trimStart_ascii_encode _
  rw [ofPem_of_decode? (Bytes.toString?_of_lt lt_of_mem_text) k.decode?_text, htrim,
    Bytes.ofString_ascii lt_of_mem_text, h.ofBlock_toDer]

/-! ## Keys that have their own text -/

/-- The keys that were not read from a PEM text. -/
inductive Rendered : Key → Prop
  | generate {suite : Suite} {e f : Entropy} {k : Key} (h : generate suite e = .ok (k, f)) : Rendered k
  | ofPublicDer {b : Bytes} {k : Key} (h : ofPublicDer b = .ok k) : Rendered k
  | ofPublicInfo {info : Der.PublicKeyInfo} {k : Key} (h : ofPublicInfo info = .ok k) : Rendered k
  | ofBuffer {suite : Suite} {b : Bytes} {k : Key} (h : ofBuffer suite b = .ok k) : Rendered k
  | publicKey {k : Key} (h : k.Made) (hk : k.isPrivate = true) : Rendered k.publicKey

theorem pem_ofPoint (suite : Suite) (P : Point) : (ofPoint suite P).pem = (ofPoint suite P).text := rfl

theorem pem_ofScalar (suite : Suite) (d : Nat) : (ofScalar suite d).pem = (ofScalar suite d).text := rfl

theorem pem_of_ofPublicInfo {info : Der.PublicKeyInfo} {k : Key} (h : ofPublicInfo info = .ok k) : k.pem = k.text := by
  obtain ⟨suite, -, h⟩ := bind_eq_ok.mp h
  split at h
  · cases h
    exact pem_ofPoint ..
  · cases h

theorem Rendered.pem_eq {k : Key} (h : k.Rendered) : k.pem = k.text := by
  cases h with
  | @generate suite e f k h =>
    unfold Key.generate at h
    split at h
    · cases h
      exact pem_ofScalar ..
    · cases h
  | @ofPublicDer b k h =>
    unfold Key.ofPublicDer at h
    split at h
    · cases h
    · exact pem_of_ofPublicInfo h
  | ofPublicInfo h => exact pem_of_ofPublicInfo h
  | @ofBuffer suite b k h =>
    obtain ⟨p, -, h⟩ := bind_eq_ok.mp h
    split at h
    · cases h
      exact pem_ofPoint ..
    · cases h
  | @publicKey k h hk =>
    rw [Key.publicKey, if_pos hk]
    exact pem_ofPoint ..

theorem Rendered.ofPem_self {k : Key} (h : k.Rendered) (hvalid : k.Valid) : ofPem k.suite k.pem = .ok k := by
  have hpem := h.pem_eq
  have hread := hvalid.ofPem_text
  rw [hpem, hread, ← hpem]

/-- What a reader of the public half of a key gets. -/
structure PublicHalf (l k : Key) : Prop where
  suite : l.suite = k.suite
  secret : l.secret = none
  point : l.point = k.point
  publicDer : l.publicDer = k.publicDer

theorem publicHalf_ofPoint (k : Key) : (ofPoint k.suite k.point).PublicHalf k := ⟨rfl, rfl, rfl, rfl⟩

/-- All written forms of a key are read back. -/
theorem encodings_round_trip {k : Key} (h : k.Made) :
    (∃ l, ofPublicDer k.publicDer = .ok l ∧ l.PublicHalf k) ∧
      (∃ l, ofBuffer k.suite k.toBuffer = .ok l ∧ l.PublicHalf k) ∧
      (k.Rendered → k.pem = k.text ∧ ofPem k.suite k.pem = .ok k) := by
  refine ⟨⟨_, h.valid.ofPublicDer_publicDer, k.publicHalf_ofPoint⟩,
    ⟨_, h.valid.ofBuffer_toBuffer, k.publicHalf_ofPoint⟩, fun hrendered => ?_⟩
  have hpem := hrendered.pem_eq
  refine ⟨hpem, ?_⟩
  have hread := h.valid.ofPem_text
  rw [hpem, hread, ← hpem]

/-- A compact key with the first coordinate in one byte. -/
def shortBuffer : Bytes :=
  [1, 0, 5, 32, 0] ++ Bytes.ofNat 32 0x459243b9aa581806fe913bce99817ade11ca503c64d9a3c533415c083248fbcc

/-- The key that it stands for. -/
def shortKey : Key :=
  ofPoint .ecdsaP256 (.affine 5 0x459243b9aa581806fe913bce99817ade11ca503c64d9a3c533415c083248fbcc)

theorem ofBuffer_shortBuffer : ofBuffer .ecdsaP256 shortBuffer = .ok shortKey := by
  have htagged : bufferPoint shortBuffer = .ok (Curve.encodePoint shortKey.point) := by decide +kernel
  have hpoint : Curve.p256.decodePoint? (Curve.encodePoint shortKey.point) = some shortKey.point := by decide +kernel
  refine bind_eq_ok.mpr ⟨_, htagged, ?_⟩
  rw [Suite.curve, hpoint]
  rfl

theorem encodings_round_trip_short : shortKey.Made ∧ shortKey.Rendered ∧
    (∃ l, ofPublicDer shortKey.publicDer = .ok l ∧ l.PublicHalf shortKey) ∧
    (∃ l, ofBuffer .ecdsaP256 shortKey.toBuffer = .ok l ∧ l.PublicHalf shortKey) ∧
    shortKey.pem = shortKey.text ∧ ofPem .ecdsaP256 shortKey.pem = .ok shortKey := by
  have hmade : shortKey.Made := .ofBuffer ofBuffer_shortBuffer
  have hrendered : shortKey.Rendered := .ofBuffer ofBuffer_shortBuffer
  obtain ⟨hder, hbuffer, hpem⟩ := encodings_round_trip hmade
  exact ⟨hmade, hrendered, hder, hbuffer, hpem hrendered⟩

/-! ## Keys that keep the text they were read from -/

/-- The text that a key keeps is read back as the key, unless the white space in front of it hid a BEGIN mark. Then it
is not read at all. -/
theorem ofPem_pem {suite : Suite} {b : Bytes} {k : Key} (h : ofPem suite b = .ok k) :
    ∃ s, Bytes.toString? b = some s ∧ k.pem = Bytes.ofString (Text.trimStart s) ∧
      ofPem suite k.pem
        = if Pem.hides (Bytes.ofString (Text.leading s)) k.pem then .error (.malformedKey .encoding) else .ok k := by
  cases hs : Bytes.toString? b with
  | none =>
    rw [ofPem, hs] at h
    cases h
  | some s =>
    cases hb : Pem.decode? b with
    | none =>
      rw [ofPem, hs, hb] at h
      cases h
    | some block =>
      rw [ofPem_of_decode? hs hb] at h
      have hpem : k.pem = Bytes.ofString (Text.trimStart s) := (valid_of_ofBlock h).2
      have htext : Bytes.toString? k.pem = some (Text.trimStart s) := by rw [hpem, Bytes.toString?_ofString]
      have hsplit : Bytes.ofString (Text.leading s) ++ k.pem = b := by
        rw [hpem, Text.ofString_leading_append, Bytes.ofString_of_toString? hs]
      have hrest := Pem.decode?_append_blank (fun c hc => Text.ne_of_mem_leading hc) (hsplit ▸ hb)
      refine ⟨s, rfl, hpem, ?_⟩
      split at hrest
      · next hhides => rw [if_pos hhides, ofPem, htext, hrest]
      · next hhides => rw [if_neg hhides, ofPem_of_decode? htext hrest, Text.trimStart_trimStart, h]

theorem ofPem_pem_generated : ofPem .sm2 (ofScalar .sm2 1).text = .ok (ofScalar .sm2 1) ∧
    ∃ s, Bytes.toString? (ofScalar .sm2 1).text = some s ∧ (ofScalar .sm2 1).pem = Bytes.ofString (Text.trimStart s) ∧
      ofPem .sm2 (ofScalar .sm2 1).pem
        = if Pem.hides (Bytes.ofString (Text.leading s)) (ofScalar .sm2 1).pem then .error (.malformedKey .encoding)
          else .ok (ofScalar .sm2 1) := by
  have hread : ofPem .sm2 (ofScalar .sm2 1).text = .ok (ofScalar .sm2 1) :=
    (made_ofScalar .sm2 (by decide) (by decide)).valid.ofPem_text
  exact ⟨hread, ofPem_pem hread⟩

/-- A BEGIN mark on a line of its own in front of the text of a key. -/
def marked (k : Key) : Bytes := Pem.beginMark ++ 10 :: k.text

theorem lt_of_mem_marked {k : Key} : ∀ c ∈ k.marked, c.toNat < 128 := by
  have hmark : ∀ c ∈ Pem.beginMark, c.toNat < 128 := fun c hc => (Pem.isVisible_of_mem_beginMark hc).lt
  rw [marked, List.forall_mem_append, List.forall_mem_cons]
  exact ⟨hmark, by decide, lt_of_mem_text⟩

theorem isPrefixOf_text (k : Key) : Pem.beginMark.isPrefixOf k.text = true := by
  refine List.isPrefixOf_iff_prefix.mpr ?_
  simp only [text, Pem.Block.encode, List.append_assoc]
  exact List.prefix_append ..

/-- The line passes for the start of the block, so there is none. -/
theorem ofPem_marked (k : Key) : ofPem k.suite k.marked = .error (.malformedKey .encoding) := by
  have hpreamble : Pem.dropPreamble? k.marked = some k.marked := Pem.dropPreamble?_append _
  have hblock : Pem.block? k.marked = none := by
    rw [Pem.block?, marked, Pem.dropPrefix?_append]
    rfl
  have hnone : Pem.decode? k.marked = none := by rw [Pem.decode?_eq_bind, hpreamble, Option.bind_some, hblock]
  rw [ofPem, Bytes.toString?_of_lt lt_of_mem_marked, hnone]

/-- Behind a blank the line does not start with the mark and is passed over, but it is what the key keeps. -/
theorem Valid.ofPem_blank_marked {k : Key} (h : k.Valid) :
    ofPem k.suite (32 :: k.marked) = .ok { k with pem := k.marked } := by
  have hblank : ∀ c ∈ 32 :: k.marked, c.toNat < 128 := List.forall_mem_cons.mpr ⟨by decide, lt_of_mem_marked⟩
  have hline : ∀ c ∈ 32 :: Pem.beginMark, c ≠ 0 ∧ c ≠ 10 :=
    List.forall_mem_cons.mpr ⟨by decide, fun c hc => (Pem.isVisible_of_mem_beginMark hc).ne⟩
  have hpreamble : Pem.dropPreamble? (32 :: k.marked) = some k.text := by
    rw [Pem.dropPreamble?, Pem.isPrefixOf_of_ne (by decide), if_neg Bool.false_ne_true]
    exact (Pem.dropPreambleLines?_line hline k.isPrefixOf_text :)
  have hblock : Pem.decode? (32 :: k.marked) = some ⟨k.label, k.toDer⟩ := by
    have htext := k.decode?_text
    have hself : Pem.dropPreamble? k.text = some k.text := if_pos k.isPrefixOf_text
    rw [Pem.decode?_eq_bind, hself] at htext
    rw [Pem.decode?_eq_bind, hpreamble, htext]
  have htrim : Text.trimStart (Bytes.ascii (32 :: k.marked)) = Bytes.ascii k.marked := by
    rw [Text.trimStart_ascii_cons_of_blank (by decide)]
    exact Text.trimStart_ascii_cons (by decide) _
  rw [ofPem_of_decode? (Bytes.toString?_of_lt hblank) hblock, htrim, Bytes.ofString_ascii lt_of_mem_marked,
    h.ofBlock_toDer]

theorem ofPem_pem_hidden : ∃ k, ofPem .ecdsaP256 (32 :: (ofScalar .ecdsaP256 1).marked) = .ok k ∧
    ofPem .ecdsaP256 k.pem = .error (.malformedKey .encoding) := by
  have hvalid := (made_ofScalar .ecdsaP256 (by decide) (by decide) : (ofScalar .ecdsaP256 1).Made).valid
  exact ⟨_, hvalid.ofPem_blank_marked, ofPem_marked _⟩

end Signet.Key
