import Signet.Proofs.Command.NewKey

/-!
# What a failing command leaves behind

Each command writes its one file in its last step that can fail, so a command that fails has changed no file. The exception
is a new key with two files, of which the first one stays where the second one cannot be written.
-/

namespace Signet

namespace Command

open Script

variable {w w' : Workspace} {c : Command} {e : CommandError} {ending : Ending} {arguments : List String}

/-! ## Steps that commands share -/

theorem keepsFiles_suite (algorithm : String) : KeepsFiles (suite algorithm) :=
  keepsFiles_attempt _ _

theorem keepsFiles_readKey (s : Suite) (path : String) : KeepsFiles (readKey s path) :=
  .bind (keepsFiles_read path) fun _ => keepsFiles_attempt _ _

theorem keepsFiles_readBundle (s : Suite) (path : String) : KeepsFiles (readBundle s path) :=
  .bind (keepsFiles_read path) fun _ => keepsFiles_attempt _ _

theorem keepsFiles_readIdentity (config : IdentityConfig) : KeepsFiles (readIdentity config) :=
  .bind (keepsFiles_tryRead _) fun _ => .bind (keepsFiles_tryRead _) fun _ => .bind (keepsFiles_attempt _ _) fun _ =>
    .bind (onlyPrints_log _ _).keepsFiles fun _ => .pure _

theorem keepsFiles_unbase64 (text : String) : KeepsFiles (unbase64 text) := by
  unfold unbase64
  split
  · exact .pure _
  · exact .throw _

theorem keepsFiles_cipherKey (a : CipherAlgorithm) (given : Option String) : KeepsFiles (cipherKey a given) := by
  cases given with
  | some text => exact keepsFiles_attempt _ _
  | none => exact .bind (keepsFiles_draw _ _ _) fun k => .bind (onlyPrints_say _).keepsFiles fun _ => .pure k

theorem keepsFiles_batchConfig (config : Option String) : KeepsFiles (batchConfig config) := by
  cases config with
  | some path => exact .bind (keepsFiles_tryRead path) fun _ => .bind (keepsFiles_attempt _ _) fun _ => .pure _
  | none => exact .pure _

theorem keepsFiles_prepare (config : BatchConfig) : KeepsFiles (prepare config) :=
  .bind (keepsFiles_draw _ _ _) fun _ => .bind (OnlyPrints.forM (fun _ => onlyPrints_log _ _) _).keepsFiles fun _ =>
    .bind (onlyPrints_log _ _).keepsFiles fun _ => .bind (onlyPrints_log _ _).keepsFiles fun _ => .pure _

theorem onlyPrints_showBundle (b : Bundle) : OnlyPrints (showBundle b) :=
  .bind (onlyPrints_say _) fun _ => .bind (onlyPrints_say _) fun _ => .bind (onlyPrints_say _) fun _ =>
    .bind (onlyPrints_say _) fun _ => .bind (onlyPrints_say _) fun _ => .bind (onlyPrints_say _) fun _ => onlyPrints_say _

theorem onlyPrints_showOutcome (o : Engine.Outcome) : OnlyPrints (showOutcome o) := by
  refine .bind (onlyPrints_say _) fun _ => .bind (onlyPrints_say _) fun _ => .bind (onlyPrints_say _) fun _ => ?_
  split
  · exact onlyPrints_say _
  · exact .forM (fun _ => onlyPrints_say _) _

/-! ## Commands that write no file -/

theorem keepsFiles_runCheck (algorithm certificate : String) (roots : List String) :
    KeepsFiles (runCheck algorithm certificate roots) := by
  refine .bind (keepsFiles_suite _) fun s => .bind (keepsFiles_readBundle s _) fun bundle => ?_
  refine .bind (.mapM (keepsFiles_readBundle s) roots) fun roots => .bind keepsFiles_now fun now => ?_
  split
  · exact (onlyPrints_say _).keepsFiles
  · exact .bind (onlyPrints_log _ _).keepsFiles fun _ => .throw _

theorem keepsFiles_runSign (config input : String) (batch : Bool) : KeepsFiles (runSign config input batch) := by
  refine .bind (keepsFiles_tryRead config) fun content => ?_
  dsimp only
  split
  · exact .bind (onlyPrints_log _ _).keepsFiles fun _ => .throw_bind _ _
  · refine .bind (keepsFiles_attempt _ _) fun config => .bind (keepsFiles_readIdentity config.identity) fun _ => ?_
    refine .bind (keepsFiles_read input) fun _ => ?_
    split
    · exact .bind (keepsFiles_draw _ _ _) fun _ => (onlyPrints_say _).keepsFiles
    · exact .bind (keepsFiles_attempt _ _) fun _ => (onlyPrints_say _).keepsFiles

theorem keepsFiles_runVerify (algorithm certificate input signature : String) :
    KeepsFiles (runVerify algorithm certificate input signature) := by
  refine .bind (keepsFiles_suite _) fun s => .bind (keepsFiles_readBundle s _) fun _ => ?_
  refine .bind (keepsFiles_unbase64 signature) fun _ => .bind (keepsFiles_read input) fun _ => ?_
  exact .bind (keepsFiles_attempt _ _) fun _ => (onlyPrints_say _).keepsFiles

theorem keepsFiles_runHash (algorithm input : String) : KeepsFiles (runHash algorithm input) := by
  refine .bind (keepsFiles_attempt _ _) fun _ => .bind (keepsFiles_tryRead input) fun _ => ?_
  exact .bind (keepsFiles_attempt _ _) fun _ => (onlyPrints_say _).keepsFiles

theorem keepsFiles_runBenchBatch (count : Nat) (config : Option String) : KeepsFiles (runBenchBatch count config) := by
  unfold runBenchBatch
  dsimp only
  split
  · exact .throw_bind _ _
  · refine .bind (keepsFiles_batchConfig config) fun _ => .bind (keepsFiles_prepare _) fun _ => ?_
    refine .bind (keepsFiles_draw _ _ _) fun _ => .bind (.mapM (fun _ => keepsFiles_draw _ _ _) _) fun _ => ?_
    refine .bind (.mapM (fun _ => keepsFiles_draw _ _ _) _) fun _ => ?_
    refine .bind (.forM (fun _ => keepsFiles_attempt _ _) _) fun _ => .bind (keepsFiles_attempt _ _) fun outcome => ?_
    exact (onlyPrints_showOutcome outcome).keepsFiles

/-! ## Commands that write one file -/

theorem failsClean_runInit (output dataDirectory algorithm : String) :
    FailsClean (runInit output dataDirectory algorithm) := by
  refine .bind (keepsFiles_suite _) fun _ => .bind (onlyPrints_log _ _).keepsFiles fun _ => ?_
  refine (failsClean_write _ _).bind_onlyPrints fun _ => .bind (onlyPrints_saved _ _) fun _ => ?_
  exact .bind (onlyPrints_say _) fun _ => .bind (onlyPrints_say _) fun _ => .bind (onlyPrints_say _) fun _ =>
    .bind (onlyPrints_say _) fun _ => onlyPrints_say _

theorem failsClean_runCa (algorithm key : String) (subject : SubjectInfo) (output : String) :
    FailsClean (runCa algorithm key subject output) := by
  refine .bind (keepsFiles_suite _) fun s => .bind (keepsFiles_readKey s _) fun _ => ?_
  refine .bind keepsFiles_now fun _ => .bind (keepsFiles_draw _ _ _) fun bundle => ?_
  exact (failsClean_write _ _).bind_onlyPrints fun _ =>
    .bind (onlyPrints_saved _ _) fun _ => onlyPrints_showBundle bundle

theorem failsClean_runIssue (algorithm caCertificate caKey subjectKey : String) (subject : SubjectInfo)
    (intermediate : Bool) (output : String) :
    FailsClean (runIssue algorithm caCertificate caKey subjectKey subject intermediate output) := by
  refine .bind (keepsFiles_suite _) fun s => .bind (keepsFiles_readBundle s _) fun _ => ?_
  refine .bind (keepsFiles_readKey s _) fun _ => .bind (keepsFiles_readKey s _) fun _ => ?_
  refine .bind keepsFiles_now fun _ => .bind (keepsFiles_draw _ _ _) fun bundle => ?_
  exact (failsClean_write _ _).bind_onlyPrints fun _ =>
    .bind (onlyPrints_saved _ _) fun _ => onlyPrints_showBundle bundle

theorem failsClean_runEncrypt (algorithm : String) (key : Option String) (input output : String) :
    FailsClean (runEncrypt algorithm key input output) := by
  refine .bind (keepsFiles_attempt _ _) fun a => .bind (keepsFiles_cipherKey a key) fun _ => ?_
  refine .bind (keepsFiles_read input) fun _ => .bind (keepsFiles_draw _ _ _) fun _ => ?_
  exact (failsClean_write _ _).bind_onlyPrints fun _ => onlyPrints_saved _ _

theorem failsClean_runDecrypt (algorithm key input output : String) :
    FailsClean (runDecrypt algorithm key input output) := by
  refine .bind (keepsFiles_attempt _ _) fun _ => .bind (keepsFiles_attempt _ _) fun _ => ?_
  refine .bind (keepsFiles_read input) fun _ => ?_
  split
  · exact (KeepsFiles.throw _).failsClean
  · refine .bind (keepsFiles_unbase64 _) fun _ => .bind (keepsFiles_attempt _ _) fun _ => ?_
    exact (failsClean_write _ _).bind_onlyPrints fun _ => onlyPrints_saved _ _

/-! ## All commands -/

/-- Only a new key with a file for its public half may leave a file behind when the command fails. -/
theorem files_of_runIn_run (h : runIn c.run w = (.error e, w')) :
    w'.files = w.files ∨
      ∃ algorithm output path s k fault, c = .keygen algorithm output (some path) ∧
        HalfSaved algorithm output path w w' s k fault ∧ e = .file fault := by
  cases c with
  | init output dataDirectory algorithm => exact .inl (failsClean_runInit output dataDirectory algorithm w w' e h)
  | keygen algorithm output publicOutput =>
    rcases halfSaved_of_runIn h with hfiles | ⟨path, s, k, fault, rfl, hhalf, he⟩
    · exact .inl hfiles
    · exact .inr ⟨algorithm, output, path, s, k, fault, rfl, hhalf, he⟩
  | ca algorithm key subject output => exact .inl (failsClean_runCa algorithm key subject output w w' e h)
  | issue algorithm caCertificate caKey subjectKey subject intermediate output =>
    exact .inl (failsClean_runIssue algorithm caCertificate caKey subjectKey subject intermediate output w w' e h)
  | check algorithm certificate roots => exact .inl ((keepsFiles_runCheck algorithm certificate roots).files_eq h)
  | sign config input batch => exact .inl ((keepsFiles_runSign config input batch).files_eq h)
  | verify algorithm certificate input signature =>
    exact .inl ((keepsFiles_runVerify algorithm certificate input signature).files_eq h)
  | encrypt algorithm key input output => exact .inl (failsClean_runEncrypt algorithm key input output w w' e h)
  | decrypt algorithm key input output => exact .inl (failsClean_runDecrypt algorithm key input output w w' e h)
  | hash algorithm input => exact .inl ((keepsFiles_runHash algorithm input).files_eq h)
  | benchBatch count config => exact .inl ((keepsFiles_runBenchBatch count config).files_eq h)

theorem exists_of_failure {r : Request} (h : r.performIn w = (ending, w')) (hfailed : ending.status ≠ 0) :
    w'.files = w.files ∨ ∃ c e, r = .run c ∧ runIn c.run w = (.error e, w') ∧ ending = .ofOutcome (.error e) := by
  cases r with
  | run c =>
    rcases hrun : runIn c.run w with ⟨_ | _, v⟩
    · cases (Request.performIn_run hrun).symm.trans h
      exact .inr ⟨c, _, rfl, hrun, rfl⟩
    · cases (Request.performIn_run hrun).symm.trans h
      exact absurd rfl hfailed
  | version =>
    cases h
    exact absurd rfl hfailed
  | help =>
    have hsuccess := Request.performIn_help w
    rw [h] at hsuccess
    exact absurd (congrArg Ending.status hsuccess) hfailed
  | misuse =>
    have hkept := Request.performIn_misuse w
    rw [h] at hkept
    exact .inl (congrArg Workspace.files hkept)

/-- A command line that ends in an error leaves the files as they were, or else it made a key with two files and could not
write the second one. Then the first file holds the private key, and every other file is as it was. -/
theorem files_of_failure (h : (Request.ofArguments arguments).performIn w = (ending, w')) (hfailed : ending.status ≠ 0) :
    w'.files = w.files ∨
      ∃ algorithm output path s k fault, Request.ofArguments arguments = .run (.keygen algorithm output (some path)) ∧
        HalfSaved algorithm output path w w' s k fault ∧ ending = .ofOutcome (.error (.file fault)) ∧
        k.isPrivate = true ∧ HoldsKey w'.files s output k ∧
        ∀ other b, w.files.target other ≠ w.files.target output →
          (w'.files.read other = .ok b ↔ w.files.read other = .ok b) := by
  rcases exists_of_failure h hfailed with hfiles | ⟨c, e, hrequest, hrun, rfl⟩
  · exact .inl hfiles
  · rcases files_of_runIn_run hrun with hfiles | ⟨algorithm, output, path, s, k, fault, rfl, hhalf, rfl⟩
    · exact .inl hfiles
    · refine .inr ⟨algorithm, output, path, s, k, fault, hrequest, hhalf, rfl, hhalf.key.isPrivate, hhalf.holdsKey, ?_⟩
      exact fun other b hother => Files.read_write_of_ne hhalf.saved hother

/-- A ciphertext that cannot be written in the end. -/
theorem files_of_failure_unwritten : ∃ ending w',
    (Request.ofArguments ["encrypt", "-i", "m", "-o", "no/m"]).performIn
        ⟨⟨[(["m"], [1, 2, 3])]⟩, List.replicate 32 7, 0, []⟩ = (ending, w') ∧
      ending.status = 1 ∧ w'.files = ⟨[(["m"], [1, 2, 3])]⟩ := by
  obtain ⟨ending, w', hrun, hone⟩ := Request.exists_of_outcome (p := fun ending _ => ending.status = 1)
    (r := Request.ofArguments ["encrypt", "-i", "m", "-o", "no/m"])
    (w := ⟨⟨[(["m"], [1, 2, 3])]⟩, List.replicate 32 7, 0, []⟩) (by decide +kernel)
  have hrequest : Request.ofArguments ["encrypt", "-i", "m", "-o", "no/m"]
      = .run (.encrypt "aes128" none "m" "no/m") := by decide +kernel
  refine ⟨ending, w', hrun, hone, ?_⟩
  rcases files_of_failure hrun (by rw [hone]; decide) with hfiles | ⟨_, _, _, _, _, _, hkeygen, -⟩
  · exact hfiles
  · cases hrequest.symm.trans hkeygen

/-- The private key is left behind where there is no directory for the public one. -/
theorem files_of_failure_created : ∃ ending w',
    (Request.ofArguments ["keygen", "-o", "k.pem", "--public-output", "no/p.pem"]).performIn
        ⟨⟨[]⟩, List.replicate 31 0 ++ [5], 0, []⟩ = (ending, w') ∧
      ending.status = 1 ∧ Files.read ⟨[]⟩ "k.pem" = .error .notFound ∧ ∃ b, w'.files.read "k.pem" = .ok b := by
  have hmissing : Files.read ⟨[]⟩ "k.pem" = .error .notFound := by decide +kernel
  obtain ⟨ending, w', hrun, hone, hread⟩ := Request.exists_of_outcome
    (p := fun ending w' => ending.status = 1 ∧ (w'.files.read "k.pem").isOk = true)
    (r := Request.ofArguments ["keygen", "-o", "k.pem", "--public-output", "no/p.pem"])
    (w := ⟨⟨[]⟩, List.replicate 31 0 ++ [5], 0, []⟩) (by decide +kernel)
  exact ⟨ending, w', hrun, hone, hmissing, exists_of_isOk hread⟩

end Command

end Signet
