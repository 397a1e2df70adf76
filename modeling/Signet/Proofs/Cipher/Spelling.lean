import Signet.Proofs.Cipher.Key
import Signet.Proofs.Text.Blank

/-!
# Keys as texts

A key has one written form, and what is read as a key is this form with any white space around it. A text that is the
form of other bytes has the wrong length, and any other text is not the form of any bytes.
-/

namespace Signet

open Cipher

namespace CipherKey

variable {a : CipherAlgorithm} {k : CipherKey} {b : Bytes} {s : String}

theorem ofBytes_eq_ok : ofBytes a b = .ok k ↔ k.algorithm = a ∧ k.bytes = b := by
  unfold ofBytes
  constructor
  · intro h
    split at h
    · next v hv =>
      cases h
      exact ⟨rfl, Block.ofBytes?_eq_some.mp hv⟩
    · cases h
  · rintro ⟨rfl, rfl⟩
    rw [bytes, Block.ofBytes?_eq_some.mpr rfl]

theorem ofBytes_eq_error {e : CryptoError} : ofBytes a b = .error e ↔ b.length ≠ 16 ∧ e = .invalidKeyLength b.length := by
  unfold ofBytes Block.ofBytes?
  by_cases hlength : b.length = 16
  · simp [hlength]
  · simp [hlength, eq_comm]

theorem ofBase64_of_eq (h : Text.trim s = Base64.encodeText b) : ofBase64 a s = ofBytes a b := by
  simp only [ofBase64, Base64.decodeText?_eq_some.mpr h]

theorem ofBase64_of_ne (h : ∀ b, Text.trim s ≠ Base64.encodeText b) : ofBase64 a s = .error .base64 := by
  unfold ofBase64
  split
  · next b hb => exact absurd (Base64.decodeText?_eq_some.mp hb) (h b)
  · rfl

theorem ofBase64_eq_ok : ofBase64 a s = .ok k ↔ k.algorithm = a ∧ Text.trim s = k.base64 := by
  constructor
  · intro h
    by_cases hform : ∃ b, Text.trim s = Base64.encodeText b
    · obtain ⟨b, hb⟩ := hform
      rw [ofBase64_of_eq hb] at h
      obtain ⟨ha, rfl⟩ := ofBytes_eq_ok.mp h
      exact ⟨ha, hb⟩
    · rw [ofBase64_of_ne (not_exists.mp hform)] at h
      cases h
  · rintro ⟨rfl, hs⟩
    rw [ofBase64_of_eq hs]
    exact ofBytes_eq_ok.mpr ⟨rfl, rfl⟩

theorem ofBase64_eq_error {e : CryptoError} : ofBase64 a s = .error e ↔
    (∃ b, Text.trim s = Base64.encodeText b ∧ b.length ≠ 16 ∧ e = .invalidKeyLength b.length) ∨
      (∀ b, Text.trim s ≠ Base64.encodeText b) ∧ e = .base64 := by
  constructor
  · intro h
    by_cases hform : ∃ b, Text.trim s = Base64.encodeText b
    · obtain ⟨b, hb⟩ := hform
      rw [ofBase64_of_eq hb] at h
      exact .inl ⟨b, hb, ofBytes_eq_error.mp h⟩
    · rw [ofBase64_of_ne (not_exists.mp hform)] at h
      cases h
      exact .inr ⟨not_exists.mp hform, rfl⟩
  · rintro (⟨b, hb, hlength, rfl⟩ | ⟨hform, rfl⟩)
    · rw [ofBase64_of_eq hb]
      exact ofBytes_eq_error.mpr ⟨hlength, rfl⟩
    · exact ofBase64_of_ne hform

theorem algorithm_of_generate {e rest : Entropy} (h : generate a e = .ok (k, rest)) : k.algorithm = a := by
  obtain ⟨⟨key, f⟩, -, h⟩ := bind_eq_ok.mp h
  cases h
  rfl

/-- A text is read as a key exactly when it is the written form of the key with white space around it; so every key is
read back. Else it is the form of bytes of another length, which is what the error says, or of no bytes. -/
theorem ofBase64_exact (a : CipherAlgorithm) (s : String) :
    (∀ k, ofBase64 a s = .ok k ↔ k.algorithm = a ∧ Text.trim s = k.base64) ∧
      (∀ k : CipherKey, ofBase64 k.algorithm k.base64 = .ok k) ∧
      (∀ b : Bytes, s = Base64.encodeText b → b.length ≠ 16 → ofBase64 a s = .error (.invalidKeyLength b.length)) ∧
      ∀ e, ofBase64 a s = .error e ↔
        (∃ b, Text.trim s = Base64.encodeText b ∧ b.length ≠ 16 ∧ e = .invalidKeyLength b.length) ∨
          (∀ b, Text.trim s ≠ Base64.encodeText b) ∧ e = .base64 := by
  refine ⟨fun k => ofBase64_eq_ok, fun k => ?_, fun b hs hlength => ?_, fun e => ofBase64_eq_error⟩
  · exact ofBase64_eq_ok.mpr ⟨rfl, Base64.trim_encodeText k.bytes⟩
  · have htrim : Text.trim s = Base64.encodeText b := by rw [hs, Base64.trim_encodeText]
    exact ofBase64_eq_error.mpr (.inl ⟨b, htrim, hlength, rfl⟩)

theorem ofBase64_exact_short : ofBase64 .sm4 "AAECAwQFBgcICQoLDA0O" = .error (.invalidKeyLength 15) :=
  (ofBase64_exact .sm4 _).2.2.1 ((List.range 15).map UInt8.ofNat) (by decide +kernel) (by decide)

end CipherKey

end Signet
