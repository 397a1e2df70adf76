import Signet.Command.Line
import Signet.Proofs.Result

/-!
# Scripts in a workspace

What each step of a script does to a workspace, from which the effect of a whole script is put together.
-/

namespace Signet

namespace Script

variable {ε α β : Type} {w w' : Workspace}

def runIn (x : Script (StateM Workspace) α) (w : Workspace) : Except CommandError α × Workspace := (ExceptT.run x).run w

theorem runIn_pure (a : α) (w : Workspace) : runIn (pure a) w = (.ok a, w) := rfl

theorem runIn_bind (x : Script (StateM Workspace) α) (f : α → Script (StateM Workspace) β) (w : Workspace) :
    runIn (x >>= f) w = match runIn x w with
      | (.ok a, v) => runIn (f a) v
      | (.error e, v) => (.error e, v) := by
  change (match runIn x w with | (r, v) => (ExceptT.bindCont f r).run v) = _
  rcases runIn x w with ⟨_ | a, v⟩ <;> rfl

theorem runIn_bind_of_ok {x : Script (StateM Workspace) α} {a : α} (h : runIn x w = (.ok a, w'))
    (f : α → Script (StateM Workspace) β) : runIn (x >>= f) w = runIn (f a) w' := by
  rw [runIn_bind, h]

theorem runIn_bind_eq_ok {x : Script (StateM Workspace) α} {f : α → Script (StateM Workspace) β} {b : β} :
    runIn (x >>= f) w = (.ok b, w') ↔ ∃ a v, runIn x w = (.ok a, v) ∧ runIn (f a) v = (.ok b, w') := by
  rw [runIn_bind]
  rcases runIn x w with ⟨e | a, v⟩
  · simp
  · simp

theorem runIn_bind_eq_error {x : Script (StateM Workspace) α} {f : α → Script (StateM Workspace) β} {e : CommandError} :
    runIn (x >>= f) w = (.error e, w') ↔
      runIn x w = (.error e, w') ∨ ∃ a v, runIn x w = (.ok a, v) ∧ runIn (f a) v = (.error e, w') := by
  rw [runIn_bind]
  rcases runIn x w with ⟨e' | a, v⟩
  · simp
  · simp

theorem runIn_attempt (wrap : ε → CommandError) (x : Except ε α) (w : Workspace) :
    runIn (attempt wrap x) w = (x.mapError wrap, w) := rfl

theorem runIn_read (path : String) (w : Workspace) :
    runIn (read path) w = ((w.files.read path).mapError (.unreadable path), w) := rfl

theorem runIn_say (text : String) (w : Workspace) :
    runIn (say text) w = (.ok (), { w with printed := w.printed ++ [.result text] }) := rfl

theorem runIn_saved (what path : String) (w : Workspace) :
    runIn (saved what path) w =
      (.ok (), { w with printed := w.printed ++ [.ofLog .info (what ++ " saved to " ++ Text.quotePath path)] }) := rfl

theorem runIn_write (path : String) (b : Bytes) (w : Workspace) :
    runIn (write path b) w = match w.files.write path b with
      | .ok files => (.ok (), { w with files })
      | .error e => (.error (.file e), w) := by
  change (match w.write path b with | (r, v) => (r.mapError CommandError.file, v)) = _
  rw [Workspace.write]
  cases w.files.write path b <;> rfl

theorem runIn_draw (wrap : ε → CommandError) (size : Nat) (f : Entropy → Except ε (α × Entropy)) (w : Workspace) :
    runIn (draw wrap size f) w = match f w.entropy with
      | .ok (a, entropy) => (.ok a, { w with entropy })
      | .error e => (.error (wrap e), w) := by
  change (match w.draw f with | (r, v) => (r.mapError wrap, v)) = _
  rw [Workspace.draw]
  rcases f w.entropy with e | ⟨a, entropy⟩ <;> rfl

theorem runIn_attempt_eq_ok {wrap : ε → CommandError} {x : Except ε α} {a : α} :
    runIn (attempt wrap x) w = (.ok a, w') ↔ x = .ok a ∧ w = w' := by
  rw [runIn_attempt]
  cases x <;> simp [Except.mapError]

theorem runIn_read_eq_ok {path : String} {b : Bytes} :
    runIn (read path) w = (.ok b, w') ↔ w.files.read path = .ok b ∧ w = w' := by
  rw [runIn_read]
  cases w.files.read path <;> simp [Except.mapError]

theorem runIn_write_eq_ok {path : String} {b : Bytes} :
    runIn (write path b) w = (.ok (), w') ↔ ∃ files, w.files.write path b = .ok files ∧ w' = { w with files } := by
  rw [runIn_write]
  cases w.files.write path b <;> simp [eq_comm]

theorem runIn_write_eq_error {path : String} {b : Bytes} {e : CommandError} :
    runIn (write path b) w = (.error e, w') ↔ ∃ e', w.files.write path b = .error e' ∧ e = .file e' ∧ w' = w := by
  rw [runIn_write]
  cases w.files.write path b <;> simp [eq_comm]

theorem runIn_draw_eq_ok {wrap : ε → CommandError} {size : Nat} {f : Entropy → Except ε (α × Entropy)} {a : α} :
    runIn (draw wrap size f) w = (.ok a, w') ↔ ∃ entropy, f w.entropy = .ok (a, entropy) ∧ w' = { w with entropy } := by
  rw [runIn_draw]
  rcases f w.entropy with e | ⟨b, entropy⟩ <;> simp [eq_comm]

end Script

theorem Ending.ofOutcome_eq_success {r : Except CommandError Unit} : Ending.ofOutcome r = .success ↔ r = .ok () := by
  cases r <;> simp [ofOutcome, success]

theorem Request.exists_of_success {r : Request} {w : Workspace} (h : (r.performIn w).1 = .success) :
    ∃ w', r.performIn w = (.success, w') :=
  ⟨(r.performIn w).2, Prod.ext h rfl⟩

theorem Request.exists_of_outcome {r : Request} {w : Workspace} {p : Ending → Workspace → Prop}
    (h : p (r.performIn w).1 (r.performIn w).2) : ∃ ending w', r.performIn w = (ending, w') ∧ p ending w' :=
  ⟨(r.performIn w).1, (r.performIn w).2, rfl, h⟩

theorem Request.performIn_help (w : Workspace) : (help.performIn w).1 = .success := by
  unfold performIn perform
  generalize CommandForm.usage = lines
  rfl

theorem Request.performIn_misuse (w : Workspace) : (misuse.performIn w).2 = w := rfl

theorem Request.performIn_run {c : Command} {w w' : Workspace} {r : Except CommandError Unit}
    (h : c.run.runIn w = (r, w')) : (run c).performIn w = (.ofOutcome r, w') := by
  change (Ending.ofOutcome (c.run.runIn w).1, (c.run.runIn w).2) = _
  rw [h]

theorem Request.performIn_run_eq_success {c : Command} {w w' : Workspace} :
    (run c).performIn w = (.success, w') ↔ c.run.runIn w = (.ok (), w') := by
  change (Ending.ofOutcome (c.run.runIn w).1, (c.run.runIn w).2) = _ ↔ _
  rw [Prod.mk.injEq, Ending.ofOutcome_eq_success, Prod.ext_iff]

end Signet
