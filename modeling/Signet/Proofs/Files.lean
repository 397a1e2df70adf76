import Signet.Files
import Signet.Proofs.Result

/-!
# What a written file changes

Writing a file keeps every place that holds a file and makes no directory, so every path leads where it led before. What is
written is read again at each path to its place, and every other path is read as before.
-/

namespace Signet.Files

variable {files files' : Files} {p q : Place} {b : Bytes}

theorem mem_put {e : Place × Bytes} {es : List (Place × Bytes)} (h : e ∈ put p b es) : e = (p, b) ∨ e ∈ es := by
  induction es with
  | nil => exact .inl (List.mem_singleton.mp h)
  | cons f es ih =>
    unfold put at h
    split at h
    · rcases List.mem_cons.mp h with h | h
      · exact .inl h
      · exact .inr (List.mem_cons_of_mem f h)
    · rcases List.mem_cons.mp h with h | h
      · exact .inr (h ▸ List.mem_cons_self)
      · exact (ih h).imp_right (List.mem_cons_of_mem f)

theorem exists_mem_put {e : Place × Bytes} {es : List (Place × Bytes)} (h : e ∈ es) : ∃ f ∈ put p b es, f.1 = e.1 := by
  induction es with
  | nil => cases h
  | cons f es ih =>
    unfold put
    split
    · next hp =>
      rcases List.mem_cons.mp h with rfl | h
      · exact ⟨(p, b), List.mem_cons_self, hp.symm⟩
      · exact ⟨e, List.mem_cons_of_mem _ h, rfl⟩
    · rcases List.mem_cons.mp h with rfl | h
      · exact ⟨e, List.mem_cons_self, rfl⟩
      · obtain ⟨g, hg, hplace⟩ := ih h
        exact ⟨g, List.mem_cons_of_mem f hg, hplace⟩

theorem lookup_put (es : List (Place × Bytes)) : (put p b es).lookup p = some b := by
  induction es with
  | nil => exact List.lookup_cons_self
  | cons e es ih =>
    unfold put
    split
    · exact List.lookup_cons_self
    · next hne => rw [List.lookup_cons, beq_false_of_ne (Ne.symm hne), ih]

theorem lookup_put_of_ne {es : List (Place × Bytes)} (h : q ≠ p) : (put p b es).lookup q = es.lookup q := by
  induction es with
  | nil => rw [put, List.lookup_cons, beq_false_of_ne h]
  | cons e es ih =>
    obtain ⟨place, content⟩ := e
    unfold put
    split
    · next hp =>
      obtain rfl : place = p := hp
      rw [List.lookup_cons, List.lookup_cons, beq_false_of_ne h]
    · rw [List.lookup_cons, List.lookup_cons, ih]

/-! ## Directories -/

theorem isDirectory_iff : files.isDirectory q = true ↔ q = [] ∨ ∃ e ∈ files.entries, q <+: e.1 ∧ q ≠ e.1 := by
  simp only [isDirectory, Bool.or_eq_true, List.isEmpty_iff, List.any_eq_true, Bool.and_eq_true,
    List.isPrefixOf_iff_prefix, bne_iff_ne]

theorem isDirectory_of_prefix (hq : q <+: p) (h : files.isDirectory p = true) : files.isDirectory q = true := by
  rw [isDirectory_iff] at h ⊢
  rcases h with rfl | ⟨e, he, hp, hne⟩
  · exact .inl (List.prefix_nil.mp hq)
  · refine .inr ⟨e, he, hq.trans hp, ?_⟩
    rintro rfl
    exact hne (hp.eq_of_length_le hq.length_le)

theorem isDirectory_put (h : files.isDirectory q = true) : isDirectory ⟨put p b files.entries⟩ q = true := by
  rw [isDirectory_iff] at h ⊢
  rcases h with h | ⟨e, he, hq⟩
  · exact .inl h
  · obtain ⟨f, hf, hplace⟩ := exists_mem_put he
    exact .inr ⟨f, hf, hplace ▸ hq⟩

/-- A file that is put into a directory makes no other one. -/
theorem isDirectory_put_iff (hparent : files.isDirectory p.dropLast = true) :
    isDirectory ⟨put p b files.entries⟩ q = true ↔ files.isDirectory q = true := by
  refine ⟨fun h => ?_, isDirectory_put⟩
  rcases isDirectory_iff.mp h with h | ⟨e, he, hq, hne⟩
  · exact isDirectory_iff.mpr (.inl h)
  · rcases mem_put he with rfl | he
    · refine isDirectory_of_prefix ?_ hparent
      have hp : p ≠ [] := by
        rintro rfl
        exact hne (List.prefix_nil.mp hq)
      rw [← List.dropLast_append_getLast hp, List.prefix_concat_iff, List.dropLast_append_getLast hp] at hq
      exact hq.resolve_left hne
    · exact isDirectory_iff.mpr (.inr ⟨e, he, hq, hne⟩)

/-! ## Paths -/

/-- A path gets further through directories only. -/
theorem enter_mono (hsub : ∀ r, files.isDirectory r = true → files'.isDirectory r = true) {part : String} {place : Place}
    (h : files.enter q part = .ok place) : files'.enter q part = .ok place := by
  unfold enter at h ⊢
  split at h
  · next hself => rwa [if_pos hself]
  · next hself =>
    rw [if_neg hself]
    split at h
    · next hparent => rwa [if_pos hparent]
    · next hparent =>
      rw [if_neg hparent]
      split_ifs at h with hlong hdirectory
      rw [if_neg hlong, if_pos (hsub _ hdirectory), h]

theorem follow_mono (hsub : ∀ r, files.isDirectory r = true → files'.isDirectory r = true) {parts : List String}
    {t : Target} (h : files.follow q parts = .ok t) : files'.follow q parts = .ok t := by
  induction parts generalizing q with
  | nil => exact h
  | cons part parts ih =>
    unfold follow at h ⊢
    split at h
    · next hlast => rwa [if_pos hlast]
    · next hmore =>
      obtain ⟨place, hplace, hfollow⟩ := bind_eq_ok.mp h
      rw [if_neg hmore]
      exact bind_eq_ok.mpr ⟨place, enter_mono hsub hplace, ih hfollow⟩

theorem target_mono (hsub : ∀ r, files.isDirectory r = true → files'.isDirectory r = true) {path : String} {t : Target}
    (h : files.target path = .ok t) : files'.target path = .ok t := by
  unfold target at h ⊢
  split_ifs at h ⊢
  exact follow_mono hsub h

theorem isDirectory_of_enter {part : String} {place : Place} (hq : files.isDirectory q = true)
    (h : files.enter q part = .ok place) : files.isDirectory place = true := by
  unfold enter at h
  split_ifs at h with hself hparent hroot hlong hdirectory
  · cases h
    exact hq
  · cases h
    exact isDirectory_of_prefix (List.dropLast_prefix q) hq
  · cases h
    exact hdirectory

/-- The last name of a path is a name in a directory. -/
theorem isDirectory_of_follow {parts : List String} {mustBeDirectory : Bool} (hq : files.isDirectory q = true)
    (h : files.follow q parts = .ok (.named p mustBeDirectory)) : files.isDirectory p.dropLast = true := by
  induction parts generalizing q with
  | nil => cases h
  | cons part parts ih =>
    unfold follow at h
    split at h
    · split_ifs at h with hself hlong
      · cases h
      · cases h
        rwa [List.dropLast_concat]
    · obtain ⟨place, hplace, hfollow⟩ := bind_eq_ok.mp h
      exact ih (isDirectory_of_enter hq hplace) hfollow

theorem isDirectory_of_target {path : String} {mustBeDirectory : Bool}
    (h : files.target path = .ok (.named p mustBeDirectory)) : files.isDirectory p.dropLast = true := by
  unfold target at h
  split_ifs at h
  exact isDirectory_of_follow rfl h

/-! ## Reading and writing -/

theorem write_eq_ok {path : String} : files.write path b = .ok files' ↔
    ∃ p, files.target path = .ok (.named p false) ∧ files.isDirectory p = false ∧ files' = ⟨put p b files.entries⟩ := by
  unfold write
  rw [bind_eq_ok]
  constructor
  · rintro ⟨t, ht, h⟩
    match t with
    | .directory => cases h
    | .named p mustBeDirectory =>
      simp only at h
      split_ifs at h with hdirectory
      simp only [not_or, Bool.not_eq_true] at hdirectory
      cases h
      exact ⟨p, by rw [ht, hdirectory.1], hdirectory.2, rfl⟩
  · rintro ⟨p, ht, hdirectory, rfl⟩
    exact ⟨_, ht, by simp [hdirectory, pure, Except.pure]⟩

theorem read_eq_ok {path : String} : files.read path = .ok b ↔
    ∃ p, files.target path = .ok (.named p false) ∧ files.isDirectory p = false ∧ files.contentAt? p = some b := by
  unfold read
  rw [bind_eq_ok]
  constructor
  · rintro ⟨t, ht, h⟩
    match t with
    | .directory => cases h
    | .named p mustBeDirectory =>
      simp only at h
      split at h
      · cases h
      · next hdirectory =>
        split at h
        · cases h
        · next hcontent =>
          split at h
          · cases h
          · next hfile =>
            cases h
            exact ⟨p, by rw [ht, eq_false_of_ne_true hfile], eq_false_of_ne_true hdirectory, hcontent⟩
  · rintro ⟨p, ht, hdirectory, hcontent⟩
    exact ⟨_, ht, by simp [hdirectory, hcontent, pure, Except.pure]⟩

section

variable {path other : String} {c : Bytes}

theorem isDirectory_write (h : files.write path b = .ok files') : files'.isDirectory q = files.isDirectory q := by
  obtain ⟨p, ht, -, rfl⟩ := write_eq_ok.mp h
  exact Bool.eq_iff_iff.mpr (isDirectory_put_iff (isDirectory_of_target ht))

theorem target_write {t : Target} (h : files.write path b = .ok files') :
    files'.target other = .ok t ↔ files.target other = .ok t :=
  ⟨target_mono fun _ hr => isDirectory_write h ▸ hr, target_mono fun _ hr => (isDirectory_write h).symm ▸ hr⟩

theorem target_eq_target_write (h : files.write path b = .ok files') :
    files'.target path = files'.target other ↔ files.target path = files.target other := by
  obtain ⟨p, ht, -, -⟩ := write_eq_ok.mp h
  rw [ht, (target_write h).mpr ht, eq_comm, target_write h, eq_comm]

/-- What was written is read at every path to its place. -/
theorem read_write_of_eq (h : files.write path b = .ok files') (hplace : files.target other = files.target path) :
    files'.read other = .ok b := by
  obtain ⟨p, ht, hdirectory, hfiles⟩ := write_eq_ok.mp h
  refine read_eq_ok.mpr ⟨p, (target_write h).mpr (hplace.trans ht), (isDirectory_write h).trans hdirectory, ?_⟩
  rw [hfiles]
  exact lookup_put files.entries

theorem read_of_write (h : files.write path b = .ok files') : files'.read path = .ok b := read_write_of_eq h rfl

/-- No other file is changed or made. -/
theorem read_write_of_ne (h : files.write path b = .ok files') (hplace : files.target other ≠ files.target path) :
    files'.read other = .ok c ↔ files.read other = .ok c := by
  obtain ⟨p, ht, -, hfiles⟩ := write_eq_ok.mp h
  rw [read_eq_ok, read_eq_ok]
  refine exists_congr fun q => ?_
  rw [target_write h, isDirectory_write h]
  refine and_congr_right fun hq => and_congr_right fun _ => ?_
  have hne : q ≠ p := by
    rintro rfl
    exact hplace (hq.trans ht.symm)
  rw [hfiles, contentAt?, lookup_put_of_ne hne, contentAt?]

end

end Signet.Files
