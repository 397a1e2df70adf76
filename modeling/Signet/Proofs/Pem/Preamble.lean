import Signet.Proofs.Pem
import Signet.Proofs.Text.Utf8

/-!
# Text in front of a block

A block is looked for at the start of a text and after each LF. Without the white space in front of it, a text can start
with a BEGIN mark that was not at the start of a line before. Then nothing is read any more, since a block has no BEGIN
mark at the start of a line after its own.
-/

namespace Signet.Pem

/-! ## What a block consists of -/

/-- A character of the marks around a block. -/
def IsVisible (c : UInt8) : Prop := 32 ≤ c ∧ c ≤ 126

theorem IsVisible.ne {c : UInt8} (h : IsVisible c) : c ≠ 0 ∧ c ≠ 10 := by
  constructor <;> (rintro rfl; exact absurd h.1 (by decide))

theorem lt_of_le {c : UInt8} (h : c ≤ 126) : c.toNat < 128 :=
  Nat.lt_of_le_of_lt (UInt8.le_iff_toNat_le.mp h) (by decide)

theorem IsVisible.lt {c : UInt8} (h : IsVisible c) : c.toNat < 128 := lt_of_le h.2

theorem isVisible_of_all {b : Bytes} (h : b.all (fun c => 32 ≤ c && c ≤ 126) = true) {c : UInt8} (hc : c ∈ b) :
    IsVisible c := by
  have hrange := List.all_eq_true.mp h c hc
  rwa [Bool.and_eq_true, decide_eq_true_eq, decide_eq_true_eq] at hrange

theorem isVisible_of_mem_beginMark {c : UInt8} (hc : c ∈ beginMark) : IsVisible c := isVisible_of_all rfl hc

theorem isVisible_of_mem_endMark {c : UInt8} (hc : c ∈ endMark) : IsVisible c := isVisible_of_all rfl hc

theorem isVisible_of_mem_dashes {c : UInt8} (hc : c ∈ dashes) : IsVisible c := isVisible_of_all rfl hc

theorem dropPrefix?_eq_some {p b r : Bytes} : dropPrefix? p b = some r ↔ b = p ++ r := by
  constructor
  · intro h
    fun_induction dropPrefix? p b with
    | case1 b => exact Option.some.inj h
    | case2 x p b ih => rw [ih h, List.cons_append]
    | case3 => cases h
    | case4 => cases h
  · rintro rfl
    exact dropPrefix?_append p r

theorem dropSuffix?_eq_some {s b r : Bytes} : dropSuffix? s b = some r ↔ b = r ++ s := by
  constructor
  · intro h
    obtain ⟨r', hr', rfl⟩ := Option.map_eq_some_iff.mp h
    rw [← List.reverse_reverse b, dropPrefix?_eq_some.mp hr', List.reverse_append, List.reverse_reverse]
  · rintro rfl
    exact dropSuffix?_append r s

def lineEnds : List Bytes := [[10], [13, 10], [13]]

theorem ne_hyphen_of_mem_lineEnds {e : Bytes} (he : e ∈ lineEnds) : ∀ c ∈ e, c ≠ 45 := by
  simp only [lineEnds, List.mem_cons, List.not_mem_nil, or_false] at he
  rcases he with rfl | rfl | rfl <;> simp

theorem exists_of_dropLineEnd? {b r : Bytes} (h : dropLineEnd? b = some r) : ∃ e ∈ lineEnds, b = e ++ r := by
  unfold dropLineEnd? at h
  split at h
  · cases h
    exact ⟨[13, 10], by decide, rfl⟩
  · cases h
    exact ⟨[13], by decide, rfl⟩
  · cases h
    exact ⟨[10], by decide, rfl⟩
  · cases h

theorem exists_of_dropLastLineEnd? {b r : Bytes} (h : dropLastLineEnd? b = some r) : ∃ e ∈ lineEnds, b = r ++ e := by
  unfold dropLastLineEnd? at h
  rw [← List.reverse_reverse b]
  split at h
  · next hb =>
    cases h
    exact ⟨[13, 10], by decide, by rw [hb]; simp⟩
  · next hb =>
    cases h
    exact ⟨[10], by decide, by rw [hb]; simp⟩
  · next hb =>
    cases h
    exact ⟨[13], by decide, by rw [hb]; simp⟩
  · cases h

theorem exists_getD_dropLastLineEnd? (b : Bytes) : ∃ e ∈ [] :: lineEnds, b = (dropLastLineEnd? b).getD b ++ e := by
  cases h : dropLastLineEnd? b with
  | none => exact ⟨[], List.mem_cons_self .., (List.append_nil b).symm⟩
  | some r =>
    obtain ⟨e, he, hb⟩ := exists_of_dropLastLineEnd? h
    exact ⟨e, List.mem_cons_of_mem _ he, hb⟩

theorem exists_of_takeLabel? {blank : Bool} {b label r : Bytes} (h : takeLabel? blank b = some (label, r)) :
    b = label ++ r ∧ ∀ c ∈ label, c ≠ 10 ∧ c ≤ 126 := by
  fun_induction takeLabel? blank b generalizing label with
  | case1 =>
    cases h
    exact ⟨rfl, nofun⟩
  | case2 =>
    cases h
    exact ⟨rfl, nofun⟩
  | case3 blank x b _ hx ih =>
    obtain ⟨⟨l, r'⟩, hl, heq⟩ := Option.map_eq_some_iff.mp h
    cases heq
    obtain ⟨rfl, hlabel⟩ := ih hl
    refine ⟨rfl, List.forall_mem_cons.mpr ⟨⟨?_, hx.2⟩, hlabel⟩⟩
    rintro rfl
    exact absurd hx.1 (by decide)
  | case4 blank x b _ _ hx ih =>
    obtain ⟨⟨l, r'⟩, hl, heq⟩ := Option.map_eq_some_iff.mp h
    cases heq
    obtain ⟨rfl, hlabel⟩ := ih hl
    refine ⟨rfl, List.forall_mem_cons.mpr ⟨?_, hlabel⟩⟩
    rcases hx.1 with rfl | rfl <;> decide
  | case5 => cases h

theorem ne_hyphen_of_joinLines? {b symbols : Bytes} (h : joinLines? b = some symbols)
    (hsymbols : ∀ c ∈ symbols, c ≠ 45) : ∀ c ∈ b, c ≠ 45 := by
  fun_induction joinLines? b generalizing symbols with
  | case1 b hshort =>
    cases h
    exact hsymbols
  | case2 => cases h
  | case3 b hlong rest hrest ih =>
    obtain ⟨later, hlater, rfl⟩ := Option.map_eq_some_iff.mp h
    obtain ⟨e, he, hdrop⟩ := exists_of_dropLineEnd? hrest
    rw [← List.take_append_drop lineWidth b, hdrop]
    simp only [List.forall_mem_append] at hsymbols ⊢
    exact ⟨hsymbols.1, ne_hyphen_of_mem_lineEnds he, ih hlater hsymbols.2⟩

/-- The parts of a text that is read as a block. -/
theorem exists_of_block? {b : Bytes} {p : Block} (h : block? b = some p) :
    ∃ body tail : Bytes, b = beginMark ++ p.label ++ dashes ++ (body ++ (endMark ++ p.label ++ dashes ++ tail)) ∧
      (∀ c ∈ p.label, c ≠ 10) ∧ (∀ c ∈ body, c ≠ 45) ∧ tail ∈ [] :: lineEnds := by
  simp only [block?, Option.bind_eq_bind, Option.bind_eq_some_iff] at h
  obtain ⟨b₁, hbegin, ⟨label, b₂⟩, hlabel, b₃, hdashes, b₄, hlineEnd, b₅, hlast, b₆, hlastLabel, b₇, hend, lines,
    hlines, symbols, hjoin, content, hcontent, hp⟩ := h
  cases hp
  dsimp only at hdashes hlastLabel
  obtain ⟨e₁, he₁, rfl⟩ := exists_of_dropLineEnd? hlineEnd
  obtain ⟨e₂, he₂, rfl⟩ := exists_of_dropLastLineEnd? hlines
  obtain ⟨tail, htail, hb₄⟩ := exists_getD_dropLastLineEnd? b₄
  obtain ⟨rfl, hne⟩ := exists_of_takeLabel? hlabel
  rw [dropSuffix?_eq_some.mp hlast, dropSuffix?_eq_some.mp hlastLabel, dropSuffix?_eq_some.mp hend] at hb₄
  refine ⟨e₁ ++ (lines ++ e₂), tail, ?_, fun c hc => (hne c hc).1, ?_, htail⟩
  · rw [dropPrefix?_eq_some.mp hbegin, dropPrefix?_eq_some.mp hdashes, hb₄]
    simp only [List.append_assoc]
  · have hsymbols : ∀ c ∈ symbols, c ≠ 45 := fun c hc => (Base64.isPlain_of_decode? hcontent c hc).2.2
    simp only [List.forall_mem_append]
    exact ⟨ne_hyphen_of_mem_lineEnds he₁, ne_hyphen_of_joinLines? hjoin hsymbols, ne_hyphen_of_mem_lineEnds he₂⟩

/-! ## Where a block is looked for -/

theorem dropPreambleLines?_cons {x : UInt8} {b : Bytes} (hx : x = 10 → beginMark.isPrefixOf b = false)
    (hb : dropPreambleLines? b = none) : dropPreambleLines? (x :: b) = none := by
  have hno : ¬(x = 10 ∧ beginMark.isPrefixOf b = true) := by
    rintro ⟨h10, hmark⟩
    rw [hx h10] at hmark
    cases hmark
  rw [dropPreambleLines?, if_neg hno, hb, ite_self]

/-- No line starts within a text without LF. -/
theorem dropPreambleLines?_append_of_ne {a b : Bytes} (ha : ∀ c ∈ a, c ≠ 10) (hb : dropPreambleLines? b = none) :
    dropPreambleLines? (a ++ b) = none := by
  induction a with
  | nil => exact hb
  | cons x a ih =>
    obtain ⟨hx, ha⟩ := List.forall_mem_cons.mp ha
    exact dropPreambleLines?_cons (fun h => absurd h hx) (ih ha)

/-- A line in front of a BEGIN mark is passed over. -/
theorem dropPreambleLines?_line {line rest : Bytes} (h : ∀ c ∈ line, c ≠ 0 ∧ c ≠ 10)
    (hmark : beginMark.isPrefixOf rest = true) : dropPreambleLines? (line ++ 10 :: rest) = some rest := by
  induction line with
  | nil => rw [List.nil_append, dropPreambleLines?, if_neg (by decide), if_pos ⟨rfl, hmark⟩]
  | cons x line ih =>
    obtain ⟨⟨h0, h10⟩, hline⟩ := List.forall_mem_cons.mp h
    rw [List.cons_append, dropPreambleLines?, if_neg h0, if_neg fun hand => h10 hand.1, ih hline]

theorem isPrefixOf_of_ne {x : UInt8} (hx : x ≠ 45) (b : Bytes) : beginMark.isPrefixOf (x :: b) = false := by
  have hform : beginMark = 45 :: beginMark.tail := rfl
  rw [hform, List.isPrefixOf_cons_cons, beq_eq_false_iff_ne.mpr (Ne.symm hx), Bool.false_and]

/-- No BEGIN mark starts within a text without hyphens. -/
theorem dropPreambleLines?_append_of_ne_hyphen {a b : Bytes} (ha : ∀ c ∈ a, c ≠ 45)
    (hmark : beginMark.isPrefixOf b = false) (hb : dropPreambleLines? b = none) :
    dropPreambleLines? (a ++ b) = none := by
  induction a with
  | nil => exact hb
  | cons x a ih =>
    obtain ⟨-, ha⟩ := List.forall_mem_cons.mp ha
    refine dropPreambleLines?_cons (fun _ => ?_) (ih ha)
    cases a with
    | nil => exact hmark
    | cons y a => exact isPrefixOf_of_ne (ha y (List.mem_cons_self ..)) _

/-- A block has no line after its own first one that starts with a BEGIN mark. -/
theorem dropPreambleLines?_of_block? {b : Bytes} {p : Block} (h : block? b = some p) : dropPreambleLines? b = none := by
  obtain ⟨body, tail, rfl, hlabel, hbody, htail⟩ := exists_of_block? h
  have hbegin : ∀ c ∈ beginMark, c ≠ 10 := fun c hc => (isVisible_of_mem_beginMark hc).ne.2
  have hend : ∀ c ∈ endMark, c ≠ 10 := fun c hc => (isVisible_of_mem_endMark hc).ne.2
  have hdashes : ∀ c ∈ dashes, c ≠ 10 := fun c hc => (isVisible_of_mem_dashes hc).ne.2
  have htail' : dropPreambleLines? tail = none := by
    simp only [lineEnds, List.mem_cons, List.not_mem_nil, or_false] at htail
    rcases htail with rfl | rfl | rfl | rfl <;> rfl
  refine dropPreambleLines?_append_of_ne ?_ (dropPreambleLines?_append_of_ne_hyphen hbody rfl
    (dropPreambleLines?_append_of_ne ?_ htail'))
  · simp only [List.forall_mem_append]
    exact ⟨⟨hbegin, hlabel⟩, hdashes⟩
  · simp only [List.forall_mem_append]
    exact ⟨⟨hend, hlabel⟩, hdashes⟩

/-! ## White space in front of a text -/

/-- Whether white space hides a BEGIN mark at the start of the rest of a text: it does not end a line. -/
def hides (blank rest : Bytes) : Bool := blank ≠ [] ∧ blank.getLast? ≠ some 10 ∧ beginMark.isPrefixOf rest

theorem dropPreambleLines?_append {blank : Bytes} (h : ∀ c ∈ blank, c ≠ 0 ∧ c ≠ 45) (rest : Bytes) :
    dropPreambleLines? (blank ++ rest)
      = if blank.getLast? = some 10 ∧ beginMark.isPrefixOf rest then some rest else dropPreambleLines? rest := by
  induction blank with
  | nil => rfl
  | cons x blank ih =>
    obtain ⟨hx, hblank⟩ := List.forall_mem_cons.mp h
    rw [List.cons_append, dropPreambleLines?, if_neg hx.1]
    cases blank with
    | nil => simp
    | cons y blank =>
      have hy := hblank y (List.mem_cons_self ..)
      have hno : ¬(x = 10 ∧ beginMark.isPrefixOf (y :: blank ++ rest) = true) := by
        rw [List.cons_append, isPrefixOf_of_ne hy.2]
        exact fun hand => Bool.false_ne_true hand.2
      rw [if_neg hno, ih hblank, List.getLast?_cons_cons]

/-- White space in front changes nothing unless it hides a BEGIN mark. -/
theorem dropPreamble?_append_blank {blank : Bytes} (h : ∀ c ∈ blank, c ≠ 0 ∧ c ≠ 45) (rest : Bytes) :
    dropPreamble? (blank ++ rest) = if hides blank rest then dropPreambleLines? rest else dropPreamble? rest := by
  cases blank with
  | nil => rfl
  | cons x blank =>
    have hx := h x (List.mem_cons_self ..)
    have hlines : dropPreamble? (x :: blank ++ rest) = dropPreambleLines? (x :: blank ++ rest) := by
      rw [dropPreamble?, List.cons_append, isPrefixOf_of_ne hx.2, if_neg Bool.false_ne_true]
    rw [hlines, dropPreambleLines?_append h, dropPreamble?]
    by_cases hmark : beginMark.isPrefixOf rest = true
    · by_cases hlast : (x :: blank).getLast? = some 10
      · rw [if_pos ⟨hlast, hmark⟩, if_neg (by simp [hides, hlast]), if_pos hmark]
      · rw [if_neg (fun hand => hlast hand.1), if_pos (by simp [hides, hlast, hmark])]
    · rw [if_neg (fun hand => hmark hand.2), if_neg hmark, ite_self]

/-- A block behind white space is read without it too, unless the white space hides a BEGIN mark. Then nothing is. -/
theorem decode?_append_blank {blank : Bytes} (h : ∀ c ∈ blank, c ≠ 0 ∧ c ≠ 45) {rest : Bytes} {p : Block}
    (hp : decode? (blank ++ rest) = some p) : decode? rest = if hides blank rest then none else some p := by
  rw [decode?_eq_bind, dropPreamble?_append_blank h] at hp
  split at hp
  · next hhides =>
    obtain ⟨-, -, hmark⟩ := of_decide_eq_true hhides
    rw [if_pos hhides, decode?_eq_bind, dropPreamble?, if_pos hmark]
    obtain ⟨t, ht, -⟩ := Option.bind_eq_some_iff.mp hp
    rw [Option.bind_some, Option.eq_none_iff_forall_not_mem]
    intro q hq
    rw [dropPreambleLines?_of_block? hq] at ht
    cases ht
  · next hhides => rw [if_neg hhides, decode?_eq_bind, hp]

/-! ## Written blocks as texts -/

theorem mem_wrapLines {b : Bytes} {c : UInt8} (h : c ∈ wrapLines b) : c ∈ b ∨ c = 10 := by
  fun_induction wrapLines b with
  | case1 b hshort => rwa [List.mem_append, List.mem_singleton] at h
  | case2 b hlong ih =>
    rcases List.mem_append.mp h with hc | hc
    · exact .inl (List.mem_of_mem_take hc)
    · rcases List.mem_cons.mp hc with rfl | hc
      · exact .inr rfl
      · exact (ih hc).imp_left List.mem_of_mem_drop

theorem lt_of_mem_encode {p : Block} (h : isLabel p.label = true) : ∀ c ∈ p.encode, c.toNat < 128 := by
  have hlabel : ∀ c ∈ p.label, c.toNat < 128 := fun c hc =>
    lt_of_le ((exists_of_takeLabel? (of_decide_eq_true h)).2 c hc).2
  have hlines : ∀ c ∈ wrapLines (Base64.encode p.content), c.toNat < 128 := fun c hc => by
    rcases mem_wrapLines hc with hc | rfl
    · exact Base64.lt_of_mem_encode c hc
    · decide
  have hbegin : ∀ c ∈ beginMark, c.toNat < 128 := fun c hc => (isVisible_of_mem_beginMark hc).lt
  have hend : ∀ c ∈ endMark, c.toNat < 128 := fun c hc => (isVisible_of_mem_endMark hc).lt
  have hdashes : ∀ c ∈ dashes, c.toNat < 128 := fun c hc => (isVisible_of_mem_dashes hc).lt
  have hlineEnd : ∀ c ∈ ([10] : Bytes), c.toNat < 128 := List.forall_mem_singleton.mpr (by decide)
  simp only [Block.encode, List.forall_mem_append]
  exact ⟨⟨⟨⟨⟨⟨⟨⟨hbegin, hlabel⟩, hdashes⟩, hlineEnd⟩, hlines⟩, hend⟩, hlabel⟩, hdashes⟩, hlineEnd⟩

/-- A written block is a text without white space in front. -/
theorem trimStart_ascii_encode (p : Block) : Text.trimStart (Bytes.ascii p.encode) = Bytes.ascii p.encode := by
  obtain ⟨b, hb⟩ : ∃ b, p.encode = 45 :: b := ⟨_, by simp only [Block.encode, List.append_assoc]; rfl⟩
  rw [hb, Text.trimStart_ascii_cons (by decide)]

end Signet.Pem
