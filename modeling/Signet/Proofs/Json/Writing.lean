import Signet.Proofs.Json.Reader
import Signet.Proofs.Json.Token

/-!
# Written values

A value of natural numbers, texts, lists and records is read back from its written form in every layout that puts nothing but
white space between the tokens.
-/

namespace Signet.Json

/-- A value with natural numbers only, whose strings and names are texts. -/
inductive IsPlain : Json → Prop where
  | null : IsPlain .null
  | bool (v : Bool) : IsPlain (.bool v)
  | nat (n : Nat) : IsPlain (.nat n)
  | string (s : String) : IsPlain (.string (some s))
  | list {js : List Json} (items : ∀ j ∈ js, IsPlain j) : IsPlain (.list js)
  | record {fs : List (Option String × Json)} (names : ∀ f ∈ fs, f.1.isSome = true) (values : ∀ f ∈ fs, IsPlain f.2) :
    IsPlain (.record fs)

/-- Whether a layout has white space between the parts, and a colon with white space behind it. -/
structure Layout.IsBlank (layout : Layout) : Prop where
  newLine : ∀ depth, ∀ c ∈ layout.newLine depth, isSpace c = true
  colon : ∃ space, (∀ c ∈ space, isSpace c = true) ∧ layout.colon = ':' :: space

theorem Layout.isBlank_indented : Layout.indented.IsBlank where
  newLine depth c hc := by
    rcases List.mem_cons.mp hc with rfl | hc
    · rfl
    · rw [List.eq_of_mem_replicate hc]
      rfl
  colon := ⟨[' '], List.forall_mem_singleton.mpr rfl, rfl⟩

theorem endsNumber_cons {c : Char} (h : isNumberPart c = false) (rest : List Char) : EndsNumber (c :: rest) := by
  rintro d hd
  cases hd
  exact h

theorem endsNumber_space {space : List Char} (h : ∀ c ∈ space, isSpace c = true) {c : Char} (hc : isNumberPart c = false)
    (rest : List Char) : EndsNumber (space ++ c :: rest) := by
  cases space with
  | nil => exact endsNumber_cons hc rest
  | cons d space =>
    have hd := h d List.mem_cons_self
    simp only [isSpace, Bool.or_eq_true, beq_iff_eq] at hd
    refine endsNumber_cons ?_ _
    rcases hd with ((rfl | rfl) | rfl) | rfl <;> rfl

/-- Whether the written form of a value is read back, with whatever comes after it. -/
def IsRead (layout : Layout) (j : Json) : Prop :=
  ∀ (depth : Nat) {rest : List Char} {ts : List Token}, EndsNumber rest → tokens? rest = some ts →
    tokens? (j.write layout depth ++ rest) = some (j.tokens ++ ts)

variable {layout : Layout} (hlayout : layout.IsBlank) (depth : Nat) {rest : List Char} {ts : List Token}

include hlayout

theorem endsNumber_writeItems (js : List Json) : EndsNumber (writeItems layout depth js ++ rest) := by
  cases js with
  | nil =>
    rw [writeItems, List.append_assoc]
    exact endsNumber_space (hlayout.newLine depth) rfl rest
  | cons j js => exact endsNumber_cons rfl _

theorem endsNumber_writeFields (fs : List (Option String × Json)) :
    EndsNumber (writeFields layout depth fs ++ rest) := by
  cases fs with
  | nil =>
    rw [writeFields, List.append_assoc]
    exact endsNumber_space (hlayout.newLine depth) rfl rest
  | cons f fs => exact endsNumber_cons rfl _

/-- The first item of a list stands on a new line, and the other ones come after it. -/
theorem tokens?_item {j : Json} {js : List Json} (hj : IsRead layout j)
    (hjs : tokens? (writeItems layout depth js ++ rest) = some (itemTokens js ++ ts)) :
    tokens? (layout.newLine (depth + 1) ++ j.write layout (depth + 1) ++ writeItems layout depth js ++ rest) =
      some (j.tokens ++ itemTokens js ++ ts) := by
  rw [List.append_assoc, List.append_assoc, List.append_assoc, tokens?_space (hlayout.newLine (depth + 1))]
  exact hj (depth + 1) (endsNumber_writeItems hlayout depth js) hjs

theorem tokens?_writeItems {js : List Json} (hjs : ∀ j ∈ js, IsRead layout j) (hrest : tokens? rest = some ts) :
    tokens? (writeItems layout depth js ++ rest) = some (itemTokens js ++ ts) := by
  induction js with
  | nil =>
    rw [writeItems, List.append_assoc, tokens?_space (hlayout.newLine depth)]
    exact tokens?_mark rfl rfl hrest
  | cons j js ih =>
    obtain ⟨hj, hjs⟩ := List.forall_mem_cons.mp hjs
    exact tokens?_mark rfl rfl (tokens?_item hlayout depth hj (ih hjs))

/-- The first field of a record stands on a new line, and the other ones come after it. -/
theorem tokens?_field {name : String} {j : Json} {fs : List (Option String × Json)} (hj : IsRead layout j)
    (hfs : tokens? (writeFields layout depth fs ++ rest) = some (moreTokens fs ++ ts)) :
    tokens? (layout.newLine (depth + 1) ++ writeField layout (depth + 1) (some name, j) ++ writeFields layout depth fs
      ++ rest) = some (fieldTokens (some name, j) ++ moreTokens fs ++ ts) := by
  obtain ⟨space, hspace, hcolon⟩ := hlayout.colon
  have hvalue := hj (depth + 1) (endsNumber_writeFields hlayout depth fs) hfs
  rw [← tokens?_space hspace] at hvalue
  have hname := tokens?_quoted name (tokens?_mark (c := ':') rfl rfl hvalue)
  rw [← tokens?_space (hlayout.newLine (depth + 1))] at hname
  simpa only [writeField, hcolon, fieldTokens, Option.getD_some, List.append_assoc, List.cons_append] using hname

theorem tokens?_writeFields {fs : List (Option String × Json)} (hnames : ∀ f ∈ fs, f.1.isSome = true)
    (hfs : ∀ f ∈ fs, IsRead layout f.2) (hrest : tokens? rest = some ts) :
    tokens? (writeFields layout depth fs ++ rest) = some (moreTokens fs ++ ts) := by
  induction fs with
  | nil =>
    rw [writeFields, List.append_assoc, tokens?_space (hlayout.newLine depth)]
    exact tokens?_mark rfl rfl hrest
  | cons f fs ih =>
    obtain ⟨hname, hmore⟩ := List.forall_mem_cons.mp hnames
    obtain ⟨hf, hvalues⟩ := List.forall_mem_cons.mp hfs
    obtain ⟨_ | name, j⟩ := f
    · cases hname
    · exact tokens?_mark rfl rfl (tokens?_field hlayout depth hf (ih hmore hvalues))

theorem isRead_of_isPlain {j : Json} (hj : j.IsPlain) : IsRead layout j := by
  induction hj with
  | null =>
    intro depth rest ts _ hrest
    exact tokens?_of_token? rfl rfl hrest
  | bool v =>
    intro depth rest ts _ hrest
    cases v <;> exact tokens?_of_token? rfl rfl hrest
  | nat n =>
    -- the only token whose end is not marked
    intro depth rest ts hends hrest
    exact tokens?_toDigits n hends hrest
  | string s =>
    intro depth rest ts _ hrest
    exact tokens?_quoted s hrest
  | @list js _ ih =>
    intro depth rest ts _ hrest
    cases js with
    | nil => exact tokens?_mark rfl rfl (tokens?_mark rfl rfl hrest)
    | cons j js =>
      obtain ⟨hj, hjs⟩ := List.forall_mem_cons.mp ih
      exact tokens?_mark rfl rfl (tokens?_item hlayout depth hj (tokens?_writeItems hlayout depth hjs hrest))
  | @record fs names _ ih =>
    intro depth rest ts _ hrest
    match fs with
    | [] => exact tokens?_mark rfl rfl (tokens?_mark rfl rfl hrest)
    | (none, j) :: fs => exact absurd (names _ List.mem_cons_self) Bool.false_ne_true
    | (some name, j) :: fs =>
      obtain ⟨-, hnames⟩ := List.forall_mem_cons.mp names
      obtain ⟨hj, hfs⟩ := List.forall_mem_cons.mp ih
      exact tokens?_mark rfl rfl (tokens?_field hlayout depth hj (tokens?_writeFields hlayout depth hnames hfs hrest))

theorem ofString?_toText {j : Json} (hj : j.IsPlain) : ofString? (j.toText layout) = some j := by
  have hends : EndsNumber [] := fun _ h => by cases h
  have hread := isRead_of_isPlain hlayout hj 0 hends tokens?_nil
  rw [List.append_nil, List.append_nil] at hread
  rw [ofString?, toText, String.toList_ofList, hread, Option.bind_some, ofTokens?_tokens]

end Signet.Json
