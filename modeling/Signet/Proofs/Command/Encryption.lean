import Signet.Proofs.Cipher.Spelling
import Signet.Proofs.Command.Script
import Signet.Proofs.Files

/-!
# Files that are encrypted and decrypted

What `encrypt` leaves behind is decrypted with the key that it was given, or else the one that it printed. White space around
the written ciphertext makes no difference.
-/

namespace Signet

namespace Command

open Script

variable {a : CipherAlgorithm} {k : CipherKey} {algorithm input output text : String} {given : Option String}
  {printed : List Line} {w w' : Workspace}

/-- The line that shows a new key. -/
def keyLine (a : CipherAlgorithm) (text : String) : Line := .result ("Generated " ++ a.name ++ " key: " ++ text)

/-- Whether a text is the given key, or the key in a printed line where none was given. -/
def IsKeyText (a : CipherAlgorithm) (given : Option String) (printed : List Line) (text : String) : Prop :=
  match given with
  | some t => text = t
  | none => keyLine a text ∈ printed

theorem keyLine_inj {s t : String} (h : keyLine a s = keyLine a t) : s = t := by
  simpa [keyLine] using h

theorem isKeyText_append_ofLog {level : Level} {log : String} :
    IsKeyText a given (printed ++ [.ofLog level log]) text ↔ IsKeyText a given printed text := by
  cases given with
  | some t => rfl
  | none => simp [IsKeyText, keyLine, Line.ofLog]

/-- The key that a command works with is shown, and what is shown is read as this key again. -/
theorem isKeyText_of_runIn_cipherKey (h : runIn (cipherKey a given) w = (.ok k, w')) :
    w'.files = w.files ∧ ∃ printed, w'.printed = w.printed ++ printed ∧ (∃ text, IsKeyText a given printed text) ∧
      ∀ text, IsKeyText a given printed text → CipherKey.ofBase64 a text = .ok k := by
  cases given with
  | some t =>
    obtain ⟨hk, rfl⟩ := runIn_attempt_eq_ok.mp h
    refine ⟨rfl, [], (List.append_nil _).symm, ⟨t, rfl⟩, ?_⟩
    rintro text rfl
    exact hk
  | none =>
    obtain ⟨key, v, hdraw, hsay⟩ := runIn_bind_eq_ok.mp h
    obtain ⟨entropy, hkey, rfl⟩ := runIn_draw_eq_ok.mp hdraw
    rw [runIn_bind_of_ok (runIn_say _ _), runIn_pure] at hsay
    cases hsay
    refine ⟨rfl, [keyLine a k.base64], rfl, ⟨k.base64, List.mem_singleton_self _⟩, ?_⟩
    intro text htext
    rw [keyLine_inj (List.mem_singleton.mp htext)]
    exact CipherKey.ofBase64_eq_ok.mpr ⟨CipherKey.algorithm_of_generate hkey, Base64.trim_encodeText k.bytes⟩

/-- A ciphertext that was written is one of what was read, under the key that is shown. -/
theorem exists_of_runIn_runEncrypt (h : runIn (runEncrypt algorithm given input output) w = (.ok (), w')) :
    ∃ a k content iv, CipherAlgorithm.parse algorithm = .ok a ∧ w.files.read input = .ok content ∧
      w.files.write output (Base64.encode (CipherKey.encryptWith k iv content)) = .ok w'.files ∧
      ∃ printed, w'.printed = w.printed ++ printed ∧ (∃ text, IsKeyText a given printed text) ∧
        ∀ text, IsKeyText a given printed text → CipherKey.ofBase64 a text = .ok k := by
  -- one step of the script after the other; the files are those of `w` up to the writing
  obtain ⟨a, _, hparse, h⟩ := runIn_bind_eq_ok.mp h
  obtain ⟨ha, rfl⟩ := runIn_attempt_eq_ok.mp hparse
  obtain ⟨k, w₁, hcipherKey, h⟩ := runIn_bind_eq_ok.mp h
  obtain ⟨hfiles, printed, hprinted, hshown, hkey⟩ := isKeyText_of_runIn_cipherKey hcipherKey
  obtain ⟨content, _, hread, h⟩ := runIn_bind_eq_ok.mp h
  obtain ⟨hcontent, rfl⟩ := runIn_read_eq_ok.mp hread
  obtain ⟨encrypted, w₂, hdraw, h⟩ := runIn_bind_eq_ok.mp h
  obtain ⟨entropy, hencrypt, rfl⟩ := runIn_draw_eq_ok.mp hdraw
  obtain ⟨iv, -, rfl⟩ := k.encrypt_eq_ok.mp hencrypt
  obtain ⟨⟨⟩, w₃, hwrite, h⟩ := runIn_bind_eq_ok.mp h
  obtain ⟨files, hfile, rfl⟩ := runIn_write_eq_ok.mp hwrite
  rw [runIn_saved] at h
  cases h
  rw [hfiles] at hcontent hfile
  refine ⟨a, k, content, iv, ha, hcontent, hfile, _, by rw [hprinted, List.append_assoc], ?_⟩
  simpa only [isKeyText_append_ofLog] using ⟨hshown, hkey⟩

/-- What decryption does with a file from which a text can be decrypted: only the writing of it may still fail. -/
theorem runIn_runDecrypt (output : String) {b message : Bytes} {s : String} (ha : CipherAlgorithm.parse algorithm = .ok a)
    (hk : CipherKey.ofBase64 a text = .ok k) (hread : w.files.read input = .ok (Bytes.ofString s))
    (hdecode : Base64.decodeText? (Text.trim s) = some b) (hdecrypt : k.decrypt b = .ok message) :
    runIn (runDecrypt algorithm text input output) w = match w.files.write output message with
      | .ok files => (.ok (), { w with files, printed := w.printed ++
          [.ofLog .info ("Plaintext saved to " ++ Text.quotePath output)] })
      | .error e => (.error (.file e), w) := by
  have hunbase64 : runIn (unbase64 s) w = (.ok b, w) := by rw [unbase64, hdecode, runIn_pure]
  unfold runDecrypt
  rw [runIn_bind_of_ok (runIn_attempt_eq_ok.mpr ⟨ha, rfl⟩), runIn_bind_of_ok (runIn_attempt_eq_ok.mpr ⟨hk, rfl⟩),
    runIn_bind_of_ok (runIn_read_eq_ok.mpr ⟨hread, rfl⟩), Bytes.toString?_ofString]
  simp only
  rw [runIn_bind_of_ok hunbase64, runIn_bind_of_ok (runIn_attempt_eq_ok.mpr ⟨hdecrypt, rfl⟩), runIn_bind, runIn_write]
  cases w.files.write output message with
  | ok files => exact runIn_saved ..
  | error e => rfl

/-- Whether a message is decrypted from every file with certain bytes, wherever it can be written. -/
def DecryptsTo (algorithm text : String) (b message : Bytes) : Prop :=
  ∀ (w : Workspace) (input output : String), w.files.read input = .ok b →
    (∀ files, w.files.write output message = .ok files →
      ∃ w', (Request.run (.decrypt algorithm text input output)).performIn w = (.success, w') ∧ w'.files = files ∧
        w'.files.read output = .ok message) ∧
    ∀ e, w.files.write output message = .error e →
      (Request.run (.decrypt algorithm text input output)).performIn w = (.ofOutcome (.error (.file e)), w)

theorem decryptsTo_of_trim {b message : Bytes} {s : String} (ha : CipherAlgorithm.parse algorithm = .ok a)
    (hk : CipherKey.ofBase64 a text = .ok k) (htrim : Text.trim s = Base64.encodeText b)
    (hdecrypt : k.decrypt b = .ok message) : DecryptsTo algorithm text (Bytes.ofString s) message := by
  intro w input output hread
  have hrun := runIn_runDecrypt output ha hk hread (Base64.decodeText?_eq_some.mpr htrim) hdecrypt
  constructor
  · intro files hwrite
    rw [hwrite] at hrun
    exact ⟨_, Request.performIn_run_eq_success.mpr hrun, rfl, Files.read_of_write hwrite⟩
  · intro e hwrite
    rw [hwrite] at hrun
    exact Request.performIn_run hrun

/-- A file that was encrypted without an error is decrypted to what was read, with the key that was given or printed, from
every file that has the ciphertext with any white space around it. -/
theorem decrypt_encrypted
    (hencrypt : (Request.run (.encrypt algorithm given input output)).performIn w = (.success, w')) :
    ∃ a content written printed, CipherAlgorithm.parse algorithm = .ok a ∧ w.files.read input = .ok content ∧
      w'.files.read output = .ok written ∧ w'.printed = w.printed ++ printed ∧
      (∃ text, IsKeyText a given printed text) ∧
      ∀ text, IsKeyText a given printed text → ∀ pre post : String, (∀ c ∈ pre.toList, Text.isBlank c = true) →
        (∀ c ∈ post.toList, Text.isBlank c = true) →
          DecryptsTo algorithm text (Bytes.ofString pre ++ written ++ Bytes.ofString post) content := by
  obtain ⟨a, k, content, iv, ha, hcontent, hwrite, printed, hprinted, hshown, hkey⟩ :=
    exists_of_runIn_runEncrypt (Request.performIn_run_eq_success.mp hencrypt)
  refine ⟨a, content, _, printed, ha, hcontent, Files.read_of_write hwrite, hprinted, hshown, ?_⟩
  intro text htext pre post hpre hpost
  have htrim := Text.trim_append hpre (fun c => Base64.isBlank_of_mem_encodeText (b := k.encryptWith iv content)) hpost
  rw [String.ofList_append, String.ofList_append, String.ofList_toList, String.ofList_toList, String.ofList_toList] at htrim
  rw [← Base64.ofString_encodeText, ← Bytes.ofString_append, ← Bytes.ofString_append]
  exact decryptsTo_of_trim ha (hkey text htext) htrim (k.decrypt_encryptWith iv content)

/-- Without a key of its own, `encrypt` prints one that decrypts the file, even with a blank in front and a line end behind. -/
theorem decrypt_encrypted_generated :
    ∃ w' written text, (Request.run (.encrypt "aes128" none "plain" "sealed")).performIn
        ⟨⟨[(["plain"], [1, 2, 3])]⟩, List.replicate 32 7, 0, []⟩ = (.success, w') ∧
      w'.files.read "sealed" = .ok written ∧ keyLine .aes128 text ∈ w'.printed ∧
      DecryptsTo "aes128" text (Bytes.ofString " " ++ written ++ Bytes.ofString "\n") [1, 2, 3] := by
  have hstatus : ((Request.run (.encrypt "aes128" none "plain" "sealed")).performIn
      ⟨⟨[(["plain"], [1, 2, 3])]⟩, List.replicate 32 7, 0, []⟩).1 = .success := by decide +kernel
  obtain ⟨w', hencrypt⟩ := Request.exists_of_success hstatus
  obtain ⟨a, content, written, printed, ha, hcontent, hwritten, hprinted, ⟨text, htext⟩, hdecrypts⟩ :=
    decrypt_encrypted hencrypt
  have hread : Files.read ⟨[(["plain"], [1, 2, 3])]⟩ "plain" = .ok [1, 2, 3] := by decide +kernel
  have hparse : CipherAlgorithm.parse "aes128" = .ok .aes128 := by decide +kernel
  cases hread.symm.trans hcontent
  cases hparse.symm.trans ha
  have hblank : " ".toList.all Text.isBlank = true ∧ "\n".toList.all Text.isBlank = true := by decide
  rw [List.all_eq_true, List.all_eq_true] at hblank
  exact ⟨w', written, text, hencrypt, hwritten, hprinted ▸ htext, hdecrypts text htext " " "\n" hblank.1 hblank.2⟩

end Command

end Signet
