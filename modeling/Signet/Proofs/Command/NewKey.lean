import Signet.Proofs.Command.Frame
import Signet.Proofs.Files
import Signet.Proofs.Key.Text

/-!
# Files of new keys

A new key is written to one file and its public half, where that is asked for, to another one. Both are read back unless the
two paths lead to one place, where the public half is written over the private key.
-/

namespace Signet

namespace Command

open Script

variable {algorithm output path other : String} {publicOutput : Option String} {files files' : Files} {entropy : Entropy}
  {s : Suite} {k l : Key} {b : Bytes} {w w' : Workspace} {e : CommandError}

/-! ## The key -/

/-- The key that is made of random bytes for the suite of a given name. -/
def IsNewKey (algorithm : String) (entropy : Entropy) (s : Suite) (k : Key) : Prop :=
  Suite.parse algorithm = .ok s ∧ ∃ rest, Key.generate s entropy = .ok (k, rest)

theorem IsNewKey.isPrivate (h : IsNewKey algorithm entropy s k) : k.isPrivate = true := by
  obtain ⟨-, rest, hk⟩ := h
  exact (Key.generate_eq_ok hk).2

theorem IsNewKey.reads (h : IsNewKey algorithm entropy s k) : Key.ofPem s k.pem = .ok k := by
  obtain ⟨-, rest, hk⟩ := h
  have hread := (Key.Rendered.generate hk).ofPem_self (Key.Made.generate hk).valid
  rwa [(Key.generate_eq_ok hk).1] at hread

theorem IsNewKey.reads_publicKey (h : IsNewKey algorithm entropy s k) :
    Key.ofPem s k.publicKey.pem = .ok k.publicKey := by
  obtain ⟨-, rest, hk⟩ := h
  obtain ⟨hsuite, hprivate⟩ := Key.generate_eq_ok hk
  have hmade : k.Made := .generate hk
  have hread := (Key.Rendered.publicKey hmade hprivate).ofPem_self hmade.publicKey.valid
  rwa [Key.publicKey_suite, hsuite] at hread

/-! ## The files -/

/-- A file that is read as a key of a suite. -/
def HoldsKey (files : Files) (s : Suite) (path : String) (k : Key) : Prop :=
  ∃ b, files.read path = .ok b ∧ Key.ofPem s b = .ok k

/-- The second path is given and leads to the place of the first one. -/
def Overwrites (files : Files) (output : String) (publicOutput : Option String) : Prop :=
  ∃ path, publicOutput = some path ∧ files.target output = files.target path

/-- The file at the first path holds a private key, and the one at the second path, if it is given, a key with the same
point. -/
def KeepsKey (files : Files) (s : Suite) (output : String) (publicOutput : Option String) : Prop :=
  ∃ k, k.isPrivate = true ∧ HoldsKey files s output k ∧
    ∀ path, publicOutput = some path → ∃ l, HoldsKey files s path l ∧ l.samePublic k = true

theorem HoldsKey.unique (hk : HoldsKey files s path k) (hl : HoldsKey files s path l) : k = l := by
  obtain ⟨b, hb, hk⟩ := hk
  obtain ⟨c, hc, hl⟩ := hl
  cases hb.symm.trans hc
  cases hk.symm.trans hl
  rfl

theorem holdsKey_of_write (hwrite : files.write path k.pem = .ok files') (hk : Key.ofPem s k.pem = .ok k)
    (hplace : files.target other = files.target path) : HoldsKey files' s other k :=
  ⟨k.pem, Files.read_write_of_eq hwrite hplace, hk⟩

theorem HoldsKey.write (h : HoldsKey files s other k) (hwrite : files.write path b = .ok files')
    (hplace : files.target other ≠ files.target path) : HoldsKey files' s other k := by
  obtain ⟨c, hc, hk⟩ := h
  exact ⟨c, (Files.read_write_of_ne hwrite hplace).mpr hc, hk⟩

/-! ## Making a key -/

theorem onlyPrints_showKey (s : Suite) (k : Key) : OnlyPrints (showKey s k) :=
  .bind (onlyPrints_say _) fun _ => .bind (onlyPrints_say _) fun _ => .bind (onlyPrints_say _) fun _ => onlyPrints_say _

/-- A new key that was saved: the private key first, and then its public half if there is a path for it. -/
theorem exists_of_runIn_runKeygen (h : runIn (runKeygen algorithm output publicOutput) w = (.ok (), w')) :
    ∃ s k files, IsNewKey algorithm w.entropy s k ∧ w.files.write output k.pem = .ok files ∧
      (publicOutput = none ∧ w'.files = files ∨
        ∃ path, publicOutput = some path ∧ files.write path k.publicKey.pem = .ok w'.files) := by
  obtain ⟨s, _, hsuite, h⟩ := runIn_bind_eq_ok.mp h
  obtain ⟨hs, rfl⟩ := runIn_attempt_eq_ok.mp hsuite
  obtain ⟨k, w₁, hdraw, h⟩ := runIn_bind_eq_ok.mp h
  obtain ⟨rest, hk, rfl⟩ := runIn_draw_eq_ok.mp hdraw
  obtain ⟨⟨⟩, w₂, hwrite, h⟩ := runIn_bind_eq_ok.mp h
  obtain ⟨files, hsave, rfl⟩ := runIn_write_eq_ok.mp hwrite
  rw [runIn_bind_of_ok (runIn_saved _ _ _)] at h
  refine ⟨s, k, files, ⟨hs, rest, hk⟩, hsave, ?_⟩
  cases publicOutput with
  | none => exact .inl ⟨rfl, KeepsFiles.files_eq h (onlyPrints_showKey s k).keepsFiles⟩
  | some path =>
    obtain ⟨⟨⟩, w₃, hwrite, h⟩ := runIn_bind_eq_ok.mp h
    obtain ⟨files', hsavePublic, rfl⟩ := runIn_write_eq_ok.mp hwrite
    rw [runIn_bind_of_ok (runIn_saved _ _ _)] at h
    have hfiles := KeepsFiles.files_eq h (onlyPrints_showKey s k).keepsFiles
    exact .inr ⟨path, rfl, hfiles ▸ hsavePublic⟩

theorem holdsKey_of_keygen
    (h : (Request.run (.keygen algorithm output publicOutput)).performIn w = (.success, w')) :
    ∃ s k, IsNewKey algorithm w.entropy s k ∧
      (∀ path, publicOutput = some path → HoldsKey w'.files s path k.publicKey) ∧
      (¬Overwrites w.files output publicOutput → HoldsKey w'.files s output k) ∧
      (Overwrites w.files output publicOutput → HoldsKey w'.files s output k.publicKey) := by
  obtain ⟨s, k, files, hkey, hsave, ⟨rfl, rfl⟩ | ⟨path, rfl, hsavePublic⟩⟩ :=
    exists_of_runIn_runKeygen (Request.performIn_run_eq_success.mp h)
  · refine ⟨s, k, hkey, ?_, fun _ => holdsKey_of_write hsave hkey.reads rfl, ?_⟩
    · rintro _ ⟨⟩
    · rintro ⟨_, ⟨⟩, -⟩
  · refine ⟨s, k, hkey, ?_, fun hplace => ?_, ?_⟩
    · rintro _ ⟨⟩
      exact holdsKey_of_write hsavePublic hkey.reads_publicKey rfl
    · have hsaved : HoldsKey files s output k := holdsKey_of_write hsave hkey.reads rfl
      exact hsaved.write hsavePublic fun heq => hplace ⟨path, rfl, (Files.target_eq_target_write hsave).mp heq⟩
    · rintro ⟨_, ⟨⟩, hplace⟩
      exact holdsKey_of_write hsavePublic hkey.reads_publicKey ((Files.target_eq_target_write hsave).mpr hplace)

/-- Where the public half was written over it, there is no private key any more. -/
theorem isPrivate_of_holdsKey (hkey : IsNewKey algorithm entropy s k) (h : HoldsKey files s output k.publicKey)
    (hl : HoldsKey files s output l) : l.isPrivate = false := by
  rw [hl.unique h]
  exact Key.isPrivate_publicKey hkey.isPrivate

/-- A key that was made without an error is private, its public half is in the file for it, and the key itself is in its
file unless the public half was written to the same place. -/
theorem keygen_keeps_iff
    (h : (Request.run (.keygen algorithm output publicOutput)).performIn w = (.success, w')) :
    ∃ s k, IsNewKey algorithm w.entropy s k ∧ k.isPrivate = true ∧
      (∀ path, publicOutput = some path → HoldsKey w'.files s path k.publicKey) ∧
      (¬Overwrites w.files output publicOutput → HoldsKey w'.files s output k) ∧
      (KeepsKey w'.files s output publicOutput ↔ ¬Overwrites w.files output publicOutput) := by
  obtain ⟨s, k, hkey, hpublic, hkept, hlost⟩ := holdsKey_of_keygen h
  refine ⟨s, k, hkey, hkey.isPrivate, hpublic, hkept, ?_, fun hplace => ?_⟩
  · rintro ⟨l, hl, hholds, -⟩ hplace
    have hnot := isPrivate_of_holdsKey hkey (hlost hplace) hholds
    rw [hl] at hnot
    cases hnot
  · refine ⟨k, hkey.isPrivate, hkept hplace, fun path hpath => ⟨k.publicKey, hpublic path hpath, ?_⟩⟩
    exact k.samePublic_publicKey

/-- Paths of different spelling through a directory, one to a file that is there already. -/
theorem keygen_keeps_iff_crossed : ∃ w' k,
    (Request.run (.keygen "SM2_with_SM3" "d/k.pem" (some "d/../k.pub"))).performIn
        ⟨⟨[(["d", "k.pem"], [1])]⟩, List.replicate 31 0 ++ [5], 0, []⟩ = (.success, w') ∧
      k.isPrivate = true ∧ HoldsKey w'.files .sm2 "d/k.pem" k ∧ HoldsKey w'.files .sm2 "d/../k.pub" k.publicKey ∧
      KeepsKey w'.files .sm2 "d/k.pem" (some "d/../k.pub") := by
  have hstatus : ((Request.run (.keygen "SM2_with_SM3" "d/k.pem" (some "d/../k.pub"))).performIn
      ⟨⟨[(["d", "k.pem"], [1])]⟩, List.replicate 31 0 ++ [5], 0, []⟩).1 = .success := by decide +kernel
  obtain ⟨w', hrun⟩ := Request.exists_of_success hstatus
  obtain ⟨s, k, ⟨hs, -⟩, hprivate, hpublic, hkept, hiff⟩ := keygen_keeps_iff hrun
  have hparse : Suite.parse "SM2_with_SM3" = .ok .sm2 := by decide +kernel
  cases hparse.symm.trans hs
  have hplace : ¬Overwrites ⟨[(["d", "k.pem"], [1])]⟩ "d/k.pem" (some "d/../k.pub") := by
    rintro ⟨_, ⟨⟩, htarget⟩
    revert htarget
    decide +kernel
  exact ⟨w', k, hrun, hprivate, hkept hplace, hpublic _ rfl, hiff.mpr hplace⟩

/-- With one path for both files the run is a success that leaves no private key. -/
theorem keygen_overwritten : ∃ w',
    (Request.run (.keygen "ecdsa_with_sha256" "k.pem" (some "k.pem"))).performIn
        ⟨⟨[]⟩, List.replicate 31 0 ++ [5], 0, []⟩ = (.success, w') ∧
      Suite.parse "ecdsa_with_sha256" = .ok .ecdsaP256 ∧
      ∀ k, HoldsKey w'.files .ecdsaP256 "k.pem" k → k.isPrivate = false := by
  have hstatus : ((Request.run (.keygen "ecdsa_with_sha256" "k.pem" (some "k.pem"))).performIn
      ⟨⟨[]⟩, List.replicate 31 0 ++ [5], 0, []⟩).1 = .success := by decide +kernel
  obtain ⟨w', hrun⟩ := Request.exists_of_success hstatus
  obtain ⟨s, k, hkey, -, -, hlost⟩ := holdsKey_of_keygen hrun
  have hparse : Suite.parse "ecdsa_with_sha256" = .ok .ecdsaP256 := by decide +kernel
  cases hparse.symm.trans hkey.1
  have hplace : Overwrites ⟨[]⟩ "k.pem" (some "k.pem") := ⟨"k.pem", rfl, rfl⟩
  exact ⟨w', hrun, hparse, fun l hl => isPrivate_of_holdsKey hkey (hlost hplace) hl⟩

/-! ## Failures -/

/-- A new key of which the private half was saved and the public half could not be. -/
structure HalfSaved (algorithm output path : String) (w w' : Workspace) (s : Suite) (k : Key) (e : FileError) : Prop where
  key : IsNewKey algorithm w.entropy s k
  saved : w.files.write output k.pem = .ok w'.files
  unsaved : w'.files.write path k.publicKey.pem = .error e

theorem HalfSaved.holdsKey {e : FileError} (h : HalfSaved algorithm output path w w' s k e) : HoldsKey w'.files s output k :=
  holdsKey_of_write h.saved h.key.reads rfl

theorem halfSaved_of_runIn (h : runIn (runKeygen algorithm output publicOutput) w = (.error e, w')) :
    w'.files = w.files ∨
      ∃ path s k fault, publicOutput = some path ∧ HalfSaved algorithm output path w w' s k fault ∧ e = .file fault := by
  -- up to the first writing a failure has changed nothing, and behind it only the second writing can fail
  rcases runIn_bind_eq_error.mp h with h | ⟨s, _, hsuite, h⟩
  · exact .inl ((keepsFiles_attempt _ _).files_eq h)
  obtain ⟨hs, rfl⟩ := runIn_attempt_eq_ok.mp hsuite
  rcases runIn_bind_eq_error.mp h with h | ⟨k, w₁, hdraw, h⟩
  · exact .inl (KeepsFiles.files_eq h (keepsFiles_draw _ _ _))
  obtain ⟨rest, hk, rfl⟩ := runIn_draw_eq_ok.mp hdraw
  rcases runIn_bind_eq_error.mp h with h | ⟨⟨⟩, w₂, hwrite, h⟩
  · have hfiles := failsClean_write _ _ _ _ _ h
    exact .inl hfiles
  obtain ⟨files, hsave, rfl⟩ := runIn_write_eq_ok.mp hwrite
  rw [runIn_bind_of_ok (runIn_saved _ _ _)] at h
  cases publicOutput with
  | none => exact absurd h (onlyPrints_showKey s k).not_error
  | some path =>
    rcases runIn_bind_eq_error.mp h with h | ⟨⟨⟩, w₃, -, h⟩
    · obtain ⟨fault, hfail, rfl, rfl⟩ := runIn_write_eq_error.mp h
      exact .inr ⟨path, s, k, fault, rfl, ⟨⟨hs, rest, hk⟩, hsave, hfail⟩, rfl⟩
    · rw [runIn_bind_of_ok (runIn_saved _ _ _)] at h
      exact absurd h (onlyPrints_showKey s k).not_error

end Command

end Signet
