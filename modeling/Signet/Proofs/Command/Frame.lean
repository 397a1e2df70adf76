import Signet.Command.Run
import Signet.Proofs.Command.Script

/-!
# What scripts leave as it was

Three properties of scripts, each implied by the one before it: a script may do nothing but print, it may keep the files, and
it may keep them where it fails. A row of steps that keep the files, then one writing, then steps that only print, has the
last property.
-/

namespace Signet.Script

variable {ε α β : Type} {x : Script (StateM Workspace) α} {f : α → Script (StateM Workspace) β}

/-- A script that cannot fail and changes nothing but what is printed. -/
def OnlyPrints (x : Script (StateM Workspace) α) : Prop :=
  ∀ w, ∃ a printed, runIn x w = (.ok a, { w with printed })

/-- A script that changes no file. -/
def KeepsFiles (x : Script (StateM Workspace) α) : Prop := ∀ w, (runIn x w).2.files = w.files

/-- A script that changes no file if it fails. -/
def FailsClean (x : Script (StateM Workspace) α) : Prop :=
  ∀ w w' e, runIn x w = (.error e, w') → w'.files = w.files

theorem OnlyPrints.not_error {w w' : Workspace} {e : CommandError} (hx : OnlyPrints x) : runIn x w ≠ (.error e, w') := by
  intro h
  obtain ⟨a, printed, hrun⟩ := hx w
  cases h.symm.trans hrun

theorem OnlyPrints.keepsFiles (h : OnlyPrints x) : KeepsFiles x := by
  intro w
  obtain ⟨a, printed, hrun⟩ := h w
  rw [hrun]

theorem KeepsFiles.files_eq {w w' : Workspace} {r : Except CommandError α} (h : runIn x w = (r, w')) (hx : KeepsFiles x) :
    w'.files = w.files := by
  have hfiles := hx w
  rwa [h] at hfiles

theorem KeepsFiles.failsClean (h : KeepsFiles x) : FailsClean x := fun _ _ _ hrun => files_eq hrun h

/-! ## Rows of steps -/

theorem OnlyPrints.pure (a : α) : OnlyPrints (Pure.pure a) := fun w => ⟨a, w.printed, rfl⟩

theorem OnlyPrints.bind (hx : OnlyPrints x) (hf : ∀ a, OnlyPrints (f a)) : OnlyPrints (x >>= f) := by
  intro w
  obtain ⟨a, printed, hrun⟩ := hx w
  obtain ⟨b, printed', hrun'⟩ := hf a { w with printed }
  exact ⟨b, printed', by rw [runIn_bind_of_ok hrun, hrun']⟩

theorem KeepsFiles.pure (a : α) : KeepsFiles (Pure.pure a) := fun _ => rfl

theorem KeepsFiles.throw (e : CommandError) : @KeepsFiles α (MonadExcept.throw e) := fun _ => rfl

/-- What stands behind an error does not matter. -/
theorem KeepsFiles.throw_bind (e : CommandError) (f : α → Script (StateM Workspace) β) :
    KeepsFiles (MonadExcept.throw e >>= f) := fun _ => rfl

theorem KeepsFiles.bind (hx : KeepsFiles x) (hf : ∀ a, KeepsFiles (f a)) : KeepsFiles (x >>= f) := by
  intro w
  rw [runIn_bind]
  split
  · next a v hrun => exact (hf a v).trans (files_eq hrun hx)
  · next e v hrun => exact files_eq hrun hx

theorem FailsClean.bind (hx : KeepsFiles x) (hf : ∀ a, FailsClean (f a)) : FailsClean (x >>= f) := by
  intro w w' e h
  rcases runIn_bind_eq_error.mp h with h | ⟨a, v, hrun, h⟩
  · exact KeepsFiles.files_eq h hx
  · exact (hf a v w' e h).trans (KeepsFiles.files_eq hrun hx)

/-- Behind the last step that can fail, nothing may fail any more. -/
theorem FailsClean.bind_onlyPrints (hx : FailsClean x) (hf : ∀ a, OnlyPrints (f a)) : FailsClean (x >>= f) := by
  intro w w' e h
  rcases runIn_bind_eq_error.mp h with h | ⟨a, v, -, h⟩
  · exact hx w w' e h
  · exact absurd h (hf a).not_error

theorem KeepsFiles.mapM {g : α → Script (StateM Workspace) β} (h : ∀ a, KeepsFiles (g a)) (as : List α) :
    KeepsFiles (as.mapM g) := by
  induction as with
  | nil =>
    rw [List.mapM_nil]
    exact .pure []
  | cons a as ih =>
    rw [List.mapM_cons]
    exact .bind (h a) fun b => .bind ih fun bs => .pure (b :: bs)

theorem OnlyPrints.forM {g : α → Script (StateM Workspace) Unit} (h : ∀ a, OnlyPrints (g a)) (as : List α) :
    OnlyPrints (as.forM g) := by
  induction as with
  | nil => exact .pure ()
  | cons a as ih => exact .bind (h a) fun _ => ih

theorem KeepsFiles.forM {g : α → Script (StateM Workspace) Unit} (h : ∀ a, KeepsFiles (g a)) (as : List α) :
    KeepsFiles (as.forM g) := by
  induction as with
  | nil => exact .pure ()
  | cons a as ih => exact .bind (h a) fun _ => ih

/-! ## Steps -/

theorem onlyPrints_say (text : String) : OnlyPrints (say text) := fun w => ⟨(), _, runIn_say text w⟩

theorem onlyPrints_log (level : Level) (text : String) : OnlyPrints (log level text) :=
  fun w => ⟨(), w.printed ++ [.ofLog level text], rfl⟩

theorem onlyPrints_saved (what path : String) : OnlyPrints (saved what path) := onlyPrints_log _ _

theorem keepsFiles_attempt (wrap : ε → CommandError) (r : Except ε α) : KeepsFiles (attempt wrap r) := fun _ => rfl

theorem keepsFiles_tryRead (path : String) : KeepsFiles (tryRead path) := fun _ => rfl

theorem keepsFiles_read (path : String) : KeepsFiles (read path) :=
  .bind (keepsFiles_tryRead path) fun _ => keepsFiles_attempt _ _

theorem keepsFiles_now : KeepsFiles now := fun _ => rfl

theorem keepsFiles_draw (wrap : ε → CommandError) (size : Nat) (g : Entropy → Except ε (α × Entropy)) :
    KeepsFiles (draw wrap size g) := by
  intro w
  rw [runIn_draw]
  split <;> rfl

theorem failsClean_write (path : String) (b : Bytes) : FailsClean (write path b) := by
  intro w w' e h
  obtain ⟨_, -, -, rfl⟩ := runIn_write_eq_error.mp h
  rfl

end Signet.Script
