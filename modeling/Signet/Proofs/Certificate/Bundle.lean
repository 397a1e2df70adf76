import Signet.Certificate.Bundle
import Signet.Proofs.Certificate.Record
import Signet.Proofs.Pem

/-!
# Bundles that were written

The text of a bundle is cut at the END lines of its blocks. If all its certificates are valid and not too long, each
block gives its certificate back, so that the bundle is read as it was.
-/

namespace Signet

namespace Certificate

/-! ## END lines -/

/-- Whether no END line starts in a text, whatever follows it. -/
def hasNoEnd : Bytes → Bool
  | [] => true
  | x :: b => !endLine.isPrefixOf (x :: b) && !(x :: b).isPrefixOf endLine && hasNoEnd b

theorem isPrefixOf_append_eq_false {p b : Bytes} (h₁ : p.isPrefixOf b = false) (h₂ : b.isPrefixOf p = false)
    (c : Bytes) : p.isPrefixOf (b ++ c) = false := by
  rw [Bool.eq_false_iff] at *
  simp only [ne_eq, List.isPrefixOf_iff_prefix] at *
  intro h
  rcases List.prefix_or_prefix_of_prefix h (List.prefix_append b c) with hp | hb
  · exact h₁ hp
  · exact h₂ hb

theorem cutEndLine?_append {b : Bytes} (h : hasNoEnd b = true) (c : Bytes) :
    cutEndLine? (b ++ c) = (cutEndLine? c).map fun (block, rest) => (b ++ block, rest) := by
  induction b with
  | nil => simp
  | cons x b ih =>
    simp only [hasNoEnd, Bool.and_eq_true, Bool.not_eq_true'] at h
    obtain ⟨⟨h₁, h₂⟩, hb⟩ := h
    have hno : endLine.isPrefixOf (x :: (b ++ c)) = false := isPrefixOf_append_eq_false h₁ h₂ c
    rw [List.cons_append, cutEndLine?, hno, ih hb, Option.map_map]
    rfl

theorem cutEndLine?_endLine (b : Bytes) : cutEndLine? (endLine ++ b) = some (endLine, b) := by
  have hprefix : endLine.isPrefixOf (endLine ++ b) = true := List.isPrefixOf_iff_prefix.mpr (List.prefix_append ..)
  have hform : endLine ++ b = 45 :: (endLine.tail ++ b) := rfl
  rw [hform] at hprefix ⊢
  rw [cutEndLine?, if_pos hprefix, ← hform, List.drop_left]

theorem hasNoEnd_of_forall {b : Bytes} (h : ∀ c ∈ b, c ≠ 45) : hasNoEnd b = true := by
  induction b with
  | nil => rfl
  | cons x b ih =>
    obtain ⟨hx, hb⟩ := List.forall_mem_cons.mp h
    have hform : endLine = 45 :: endLine.tail := rfl
    rw [hasNoEnd, ih hb, hform]
    simp [List.isPrefixOf, hx, Ne.symm hx]

/-! ## Blocks -/

/-- The written form of a certificate without the last line end. -/
def text (c : Certificate) : Bytes := (Pem.Block.mk label c.encode).text

theorem toPem_eq (c : Certificate) : c.toPem = c.text ++ [10] := Pem.Block.encode_eq _

/-- A certificate whose written form is read back. -/
structure Writable (c : Certificate) : Prop where
  valid : c.IsValid
  short : c.encode.length ≤ Der.maxLength

variable {c : Certificate}

theorem Writable.ofPem? (h : c.Writable) {b : Bytes} (hb : Pem.dropPreamble? b = some c.text) :
    ofPem? b = some c := by
  have hblock : Pem.decode? b = some ⟨label, c.encode⟩ :=
    Pem.decode?_of_dropPreamble? (by decide : Pem.isLabel label = true) hb
  have hfits : c.toElement.Fits := .of_encode rfl h.short
  have helement : Der.element? c.encode = some (c.toElement, []) := by
    have hread := Der.element?_encode hfits []
    rwa [List.append_nil] at hread
  simp only [Certificate.ofPem?, hblock, h.short, Option.bind_eq_bind, Option.bind_some, and_self, if_true, helement,
    ofElement?_toElement hfits h.valid]

theorem cutEndLine?_text (c : Certificate) (b : Bytes) : cutEndLine? (c.text ++ b) = some (c.text, b) := by
  obtain ⟨lines, hwrap, -, hplain⟩ := Pem.exists_lines (Base64.isPlain_of_mem_encode (b := c.encode))
  have hbegin : hasNoEnd (Pem.beginLine label) = true := by decide
  have hlines : hasNoEnd (Pem.wrapLines (Base64.encode c.encode)) = true := by
    refine hasNoEnd_of_forall fun x hx => ?_
    rw [hwrap] at hx
    rcases List.mem_append.mp hx with hx | hx
    · exact (hplain x hx).2
    · rw [List.mem_singleton.mp hx]
      decide
  have hend : Pem.endLine label = endLine := rfl
  rw [text, Pem.Block.text, hend, List.append_assoc, List.append_assoc, cutEndLine?_append hbegin,
    cutEndLine?_append hlines, cutEndLine?_endLine]
  rfl

theorem cutEndLine?_lineEnd (b : Bytes) :
    cutEndLine? (10 :: b) = (cutEndLine? b).map fun (block, rest) => (10 :: block, rest) :=
  cutEndLine?_append (b := [10]) (by decide) b

/-! ## Rows of blocks -/

/-- The written forms of certificates, one to a line, without the last line end. -/
def texts (c : Certificate) : List Certificate → Bytes
  | [] => c.text
  | d :: ds => c.text ++ 10 :: texts d ds

theorem toPem_append (c : Certificate) (ds : List Certificate) :
    c.toPem ++ ds.flatMap toPem = texts c ds ++ [10] := by
  induction ds generalizing c with
  | nil => rw [List.flatMap_nil, List.append_nil, toPem_eq, texts]
  | cons d ds ih =>
    rw [List.flatMap_cons, ih, toPem_eq, texts, List.append_assoc, List.append_assoc, List.singleton_append,
      List.cons_append]

theorem exists_text_eq (c : Certificate) : ∃ b, b ≠ [] ∧ c.text = b ++ [45] := by
  have hend : endLine = endLine.dropLast ++ [45] := rfl
  have hbegin : Pem.beginLine label ≠ [] := by decide
  refine ⟨Pem.beginLine label ++ Pem.wrapLines (Base64.encode c.encode) ++ endLine.dropLast, by simp [hbegin], ?_⟩
  rw [List.append_assoc, ← hend]
  rfl

theorem exists_texts_eq (c : Certificate) (ds : List Certificate) : ∃ b, b ≠ [] ∧ texts c ds = b ++ [45] := by
  induction ds generalizing c with
  | nil => exact c.exists_text_eq
  | cons d ds ih =>
    obtain ⟨b, -, hb⟩ := ih d
    exact ⟨c.text ++ 10 :: b, by simp, by rw [texts, hb, List.append_assoc, List.cons_append]⟩

theorem trimLineEnds_texts (c : Certificate) (ds : List Certificate) : trimLineEnds (texts c ds ++ [10]) = texts c ds := by
  obtain ⟨b, -, hb⟩ := exists_texts_eq c ds
  rw [hb, trimLineEnds]
  simp

theorem ofBlocks?_of_cutEndLine? {b block rest : Bytes} (h : cutEndLine? b = some (block, rest)) :
    ofBlocks? b = (ofPem? block).bind fun c =>
      if rest.length ≤ 1 then some [c] else (ofBlocks? rest).map (c :: ·) := by
  rw [ofBlocks?]
  split
  · next hnone =>
    rw [h] at hnone
    cases hnone
  · next hsome =>
    rw [h] at hsome
    cases hsome
    refine congrArg _ (funext fun c => ?_)
    cases ofBlocks? rest <;> rfl

/-- A block is cut off together with a line end before it. -/
theorem exists_cutEndLine? {b rest : Bytes} (hb : b = c.text ++ rest ∨ b = 10 :: (c.text ++ rest)) :
    ∃ block, cutEndLine? b = some (block, rest) ∧ Pem.dropPreamble? block = some c.text := by
  obtain ⟨t, ht⟩ : ∃ t, c.text = Pem.beginMark ++ t :=
    ⟨_, by rw [text, Pem.Block.text, Pem.beginLine]; simp only [List.append_assoc]; rfl⟩
  rcases hb with rfl | rfl
  · exact ⟨c.text, cutEndLine?_text c rest, by rw [ht, Pem.dropPreamble?_append]⟩
  · refine ⟨10 :: c.text, ?_, by rw [ht, Pem.dropPreamble?_lineEnd]⟩
    rw [cutEndLine?_lineEnd, cutEndLine?_text, Option.map_some]

theorem ofBlocks?_texts {b : Bytes} {ds : List Certificate} (h : ∀ d ∈ c :: ds, d.Writable)
    (hb : b = texts c ds ∨ b = 10 :: texts c ds) : ofBlocks? b = some (c :: ds) := by
  induction ds generalizing b c with
  | nil =>
    have hc := h c (List.mem_singleton.mpr rfl)
    rw [texts, ← List.append_nil c.text] at hb
    obtain ⟨block, hcut, hblock⟩ := exists_cutEndLine? hb
    rw [ofBlocks?_of_cutEndLine? hcut, hc.ofPem? hblock]
    rfl
  | cons d ds ih =>
    obtain ⟨hc, hds⟩ := List.forall_mem_cons.mp h
    rw [texts] at hb
    obtain ⟨block, hcut, hblock⟩ := exists_cutEndLine? hb
    have hlong : ¬(10 :: texts d ds).length ≤ 1 := by
      obtain ⟨t, -, ht⟩ := d.exists_texts_eq ds
      simp [ht]
    have hrest : ofBlocks? (10 :: texts d ds) = some (d :: ds) := ih hds (.inr rfl)
    rw [ofBlocks?_of_cutEndLine? hcut, hc.ofPem? hblock, Option.bind_some, if_neg hlong, hrest, Option.map_some]

end Certificate

/-- The key of a bundle is the one that its certificate is for. -/
theorem Bundle.key_congr {b b' : Bundle} (h : b.certificate.body.publicKey = b'.certificate.body.publicKey) :
    b.key = b'.key := by
  have hkey := b.certified
  rw [h, b'.certified, Except.ok.injEq] at hkey
  exact hkey.symm

theorem Bundle.ofCertificate_eq_ok {c : Certificate} {chain : List Certificate} {b : Bundle} :
    ofCertificate c chain = .ok b ↔ b.certificate = c ∧ b.chain = chain := by
  constructor
  · intro h
    unfold ofCertificate at h
    split at h
    · split at h
      · cases h
        exact ⟨rfl, rfl⟩
      · cases h
    · cases h
  · rintro ⟨rfl, rfl⟩
    unfold ofCertificate
    rw [dif_pos b.short]
    split
    · next k hk =>
      have hkey : b.key = k := by rw [← Except.ok.injEq, ← b.certified, hk]
      subst hkey
      rfl
    · next e he =>
      rw [b.certified] at he
      cases he

theorem Bundle.ofPem_toPem (b : Bundle) (h : ∀ c ∈ b.certificate :: b.chain, c.Writable) : ofPem b.toPem = .ok b := by
  obtain ⟨t, hne, ht⟩ := Certificate.exists_texts_eq b.certificate b.chain
  have hone : (Certificate.texts b.certificate b.chain).length ≠ 1 := by
    simp [ht, hne]
  simp only [ofPem, toPem, Certificate.toPem_append, Certificate.trimLineEnds_texts, hone, if_false,
    Certificate.ofBlocks?_texts h (.inl rfl)]
  exact ofCertificate_eq_ok.mpr ⟨rfl, rfl⟩

end Signet
