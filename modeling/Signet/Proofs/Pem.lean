import Signet.Pem
import Signet.Proofs.Text.Base64

/-!
# PEM blocks that were written

A block is read back from its written form without the last line end, also behind a line end.
-/

namespace Signet.Pem

theorem dropPrefix?_append (p b : Bytes) : dropPrefix? p (p ++ b) = some b := by
  induction p with
  | nil => rfl
  | cons x p ih => rw [List.cons_append, dropPrefix?, if_pos rfl, ih]

theorem dropSuffix?_append (b s : Bytes) : dropSuffix? s (b ++ s) = some b := by
  rw [dropSuffix?, List.reverse_append, dropPrefix?_append, Option.map_some, List.reverse_reverse]

/-! ## Lines -/

/-- The lines of a text of plain characters, without the line end behind the last one. -/
theorem exists_lines {b : Bytes} (h : ∀ c ∈ b, Base64.IsPlain c) :
    ∃ lines, wrapLines b = lines ++ [10] ∧ joinLines? lines = some b ∧ ∀ c ∈ lines, c ≠ 13 ∧ c ≠ 45 := by
  fun_induction wrapLines b with
  | case1 b hshort =>
    refine ⟨b, rfl, ?_, fun c hc => (h c hc).2⟩
    rw [joinLines?, if_pos hshort]
  | case2 b hlong ih =>
    obtain ⟨lines, hwrap, hjoin, hplain⟩ := ih fun c hc => h c (List.mem_of_mem_drop hc)
    have hlength : (b.take lineWidth).length = lineWidth := by
      rw [List.isEmpty_iff, List.drop_eq_nil_iff] at hlong
      rw [List.length_take]
      omega
    refine ⟨b.take lineWidth ++ 10 :: lines, by rw [hwrap, List.append_assoc, List.cons_append], ?_, ?_⟩
    · have hdrop : (b.take lineWidth ++ 10 :: lines).drop lineWidth = 10 :: lines := List.drop_left' hlength
      have htake : (b.take lineWidth ++ 10 :: lines).take lineWidth = b.take lineWidth := List.take_left' hlength
      rw [joinLines?, hdrop, if_neg (by simp)]
      split
      · next hnone => cases hnone
      · next rest hrest =>
        cases hrest
        rw [hjoin, htake, Option.map_some, List.take_append_drop]
    · intro c hc
      rcases List.mem_append.mp hc with hc | hc
      · exact (h c (List.mem_of_mem_take hc)).2
      · rcases List.mem_cons.mp hc with rfl | hc
        · decide
        · exact hplain c hc

theorem dropLastLineEnd?_append {b : Bytes} (h : b.getLast? ≠ some 13) : dropLastLineEnd? (b ++ [10]) = some b := by
  rw [dropLastLineEnd?, List.reverse_append, List.reverse_singleton, List.singleton_append]
  split
  · next r hr =>
    have hlast : b.reverse.head? = some 13 := by rw [(List.cons.inj hr).2, List.head?_cons]
    exact absurd (List.head?_reverse ▸ hlast) h
  · next r _ hr => rw [← (List.cons.inj hr).2, List.reverse_reverse]
  · next r hr => cases hr
  · next _ hne _ => exact absurd rfl (hne b.reverse)

/-! ## Blocks -/

/-- Whether a byte string is read as a label. -/
def isLabel (label : Bytes) : Bool := takeLabel? false label = some (label, [])

theorem takeLabel?_append {blank : Bool} {label : Bytes} (h : takeLabel? blank label = some (label, [])) (b : Bytes) :
    takeLabel? blank (label ++ 45 :: b) = some (label, 45 :: b) := by
  induction label generalizing blank with
  | nil => rw [List.nil_append, takeLabel?, if_pos rfl]
  | cons c label ih =>
    rw [takeLabel?] at h
    rw [List.cons_append, takeLabel?]
    split at h
    · cases h
    · next hdash =>
      rw [if_neg hdash]
      split at h
      · next hrange =>
        obtain ⟨⟨l, r⟩, hl, heq⟩ := Option.map_eq_some_iff.mp h
        cases heq
        rw [if_pos hrange, ih hl, Option.map_some]
      · next hrange =>
        split at h
        · next hblank =>
          obtain ⟨⟨l, r⟩, hl, heq⟩ := Option.map_eq_some_iff.mp h
          cases heq
          rw [if_neg hrange, if_pos hblank, ih hl, Option.map_some]
        · cases h

def beginLine (label : Bytes) : Bytes := beginMark ++ label ++ dashes ++ [10]

def endLine (label : Bytes) : Bytes := endMark ++ label ++ dashes

/-- The written form of a block without the last line end. -/
def Block.text (p : Block) : Bytes := beginLine p.label ++ wrapLines (Base64.encode p.content) ++ endLine p.label

theorem Block.encode_eq (p : Block) : p.encode = p.text ++ [10] := by
  simp only [encode, text, beginLine, endLine, List.append_assoc]

theorem dropPreamble?_append (b : Bytes) : dropPreamble? (beginMark ++ b) = some (beginMark ++ b) :=
  if_pos (List.isPrefixOf_iff_prefix.mpr (List.prefix_append ..))

theorem dropPreamble?_lineEnd (b : Bytes) : dropPreamble? (10 :: (beginMark ++ b)) = some (beginMark ++ b) := by
  have hprefix : beginMark.isPrefixOf (beginMark ++ b) = true := List.isPrefixOf_iff_prefix.mpr (List.prefix_append ..)
  have hlineEnd : ¬beginMark.isPrefixOf (10 :: (beginMark ++ b)) = true := Bool.false_ne_true
  rw [dropPreamble?, if_neg hlineEnd, dropPreambleLines?, if_neg (by decide), if_pos ⟨rfl, hprefix⟩]

/-- The block that a text without a preamble is. -/
def block? (b : Bytes) : Option Block := do
  let b ← dropPrefix? beginMark b
  let (label, b) ← takeLabel? false b
  let b ← dropPrefix? dashes b
  let b ← dropLineEnd? b
  let b := (dropLastLineEnd? b).getD b
  let b ← dropSuffix? dashes b
  let b ← dropSuffix? label b
  let b ← dropSuffix? endMark b
  let lines ← dropLastLineEnd? b
  let symbols ← joinLines? lines
  let content ← Base64.decode? symbols
  return ⟨label, content⟩

theorem decode?_eq_bind (b : Bytes) : decode? b = (dropPreamble? b).bind block? := rfl

/-- The last line of a text may end. -/
theorem getD_dropLastLineEnd? {b lineEnd : Bytes} (h : lineEnd = [] ∨ lineEnd = [10]) :
    (dropLastLineEnd? (b ++ dashes ++ lineEnd)).getD (b ++ dashes ++ lineEnd) = b ++ dashes := by
  have hlast : (b ++ dashes).getLast? = some 45 := by
    rw [List.getLast?_append]
    rfl
  rcases h with rfl | rfl
  · have hnone : dropLastLineEnd? (b ++ dashes) = none := by
      rw [dropLastLineEnd?, List.reverse_append]
      rfl
    rw [List.append_nil, hnone, Option.getD_none]
  · rw [dropLastLineEnd?_append (by rw [hlast]; decide), Option.getD_some]

theorem block?_text {p : Block} (h : isLabel p.label = true) {lineEnd : Bytes} (hend : lineEnd = [] ∨ lineEnd = [10]) :
    block? (p.text ++ lineEnd) = some p := by
  obtain ⟨lines, hwrap, hjoin, hplain⟩ := exists_lines (Base64.isPlain_of_mem_encode (b := p.content))
  have hlines : dropLastLineEnd? (lines ++ [10]) = some lines :=
    dropLastLineEnd?_append fun hlast => (hplain 13 (List.mem_of_getLast? hlast)).1 rfl
  have htext : p.text ++ lineEnd
      = beginMark ++ (p.label ++ (dashes ++ (10 :: (lines ++ [10] ++ endMark ++ p.label ++ dashes ++ lineEnd)))) := by
    simp only [Block.text, beginLine, endLine, hwrap, List.append_assoc, List.cons_append, List.nil_append]
  have hlabel (b : Bytes) : takeLabel? false (p.label ++ (dashes ++ b)) = some (p.label, dashes ++ b) :=
    takeLabel?_append (of_decide_eq_true h) _
  rw [htext]
  simp only [block?, Option.bind_eq_bind, Option.bind_some, dropPrefix?_append, hlabel, dropLineEnd?,
    getD_dropLastLineEnd? hend, dropSuffix?_append, hlines, hjoin, Base64.decode?_encode]
  rfl

theorem decode?_of_dropPreamble? {p : Block} (h : isLabel p.label = true) {b : Bytes}
    (hb : dropPreamble? b = some p.text) : decode? b = some p := by
  have hblock := block?_text h (.inl rfl)
  rw [List.append_nil] at hblock
  rw [decode?_eq_bind, hb, Option.bind_some, hblock]

theorem decode?_encode {p : Block} (h : isLabel p.label = true) : decode? p.encode = some p := by
  have hencode : p.encode = p.text ++ [10] := p.encode_eq
  have hpreamble : dropPreamble? p.encode = some p.encode := by
    simp only [Block.encode, List.append_assoc]
    exact dropPreamble?_append _
  rw [decode?_eq_bind, hpreamble, Option.bind_some, hencode, block?_text h (.inr rfl)]

end Signet.Pem
