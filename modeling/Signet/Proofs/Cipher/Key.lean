import Signet.Cipher.Key
import Signet.Proofs.Cipher.Aes
import Signet.Proofs.Cipher.Cbc
import Signet.Proofs.Cipher.Sm4
import Signet.Proofs.Result

/-!
# Encryption with a key

Decryption undoes encryption, and it accepts nothing but what encryption writes.
-/

namespace Signet

open Cipher

theorem CipherAlgorithm.inverts_withKey (a : CipherAlgorithm) (key : Block) : (a.withKey key).Inverts :=
  match a with
  | .aes128 => Aes.inverts_cipher key
  | .sm4 => Sm4.inverts_cipher key

namespace CipherKey

variable (k : CipherKey)

theorem drawBlock_eq_ok {e rest : Entropy} {iv : Block} : drawBlock e = .ok (iv, rest) ↔ e = iv.toBytes ++ rest := by
  constructor
  · intro h
    unfold drawBlock at h
    split at h
    · cases h
    · next b f hdraw =>
      split at h
      · cases h
      · next v hv =>
        cases h
        rw [Block.ofBytes?_eq_some.mp hv]
        exact (Entropy.draw?_eq_some hdraw).2
  · rintro rfl
    have hdraw : Entropy.draw? 16 (iv.toBytes ++ rest) = some (iv.toBytes, rest) := by
      rw [Entropy.draw?, if_pos (by simp), List.take_left' iv.length_toBytes, List.drop_left' iv.length_toBytes]
    simp only [drawBlock, hdraw, Block.ofBytes?_eq_some.mpr rfl]

theorem encrypt_eq_ok {message b : Bytes} {e rest : Entropy} :
    k.encrypt message e = .ok (b, rest) ↔ ∃ iv : Block, e = iv.toBytes ++ rest ∧ b = k.encryptWith iv message := by
  simp only [encrypt, bind_eq_ok, pure_eq_ok, Prod.exists, drawBlock_eq_ok, Prod.mk.injEq]
  constructor
  · rintro ⟨iv, _, he, rfl, rfl⟩
    exact ⟨iv, he, rfl⟩
  · rintro ⟨iv, he, rfl⟩
    exact ⟨iv, rest, he, rfl, rfl⟩

theorem length_encryptWith (iv : Block) (message : Bytes) :
    (k.encryptWith iv message).length = 16 * (message.length / 16 + 1) + 16 := by
  rw [encryptWith, Cbc.encrypt_eq, List.length_append, Cbc.length_body, Block.length_toBytes]

theorem drop_encryptWith (iv : Block) (message : Bytes) :
    (k.encryptWith iv message).drop ((k.encryptWith iv message).length - 16) = iv.toBytes := by
  rw [length_encryptWith, Nat.add_sub_cancel, encryptWith, Cbc.encrypt_eq]
  exact List.drop_left' (Cbc.length_body ..)

theorem decrypt_encryptWith (iv : Block) (message : Bytes) : k.decrypt (k.encryptWith iv message) = .ok message := by
  have hC := k.algorithm.inverts_withKey k.key
  have htake : (k.encryptWith iv message).take ((k.encryptWith iv message).length - 16)
      = Cbc.body (k.algorithm.withKey k.key) iv message := by
    rw [length_encryptWith, Nat.add_sub_cancel, encryptWith, Cbc.encrypt_eq]
    exact List.take_left' (Cbc.length_body ..)
  have hlength := k.length_encryptWith iv message
  rw [decrypt, if_neg (by omega), if_neg (by omega), drop_encryptWith, Block.ofBytes?_eq_some.mpr rfl, htake]
  simp only [Cbc.decrypt?_body hC]

theorem eq_encryptWith_of_decrypt {b message : Bytes} (h : k.decrypt b = .ok message) :
    ∃ iv : Block, iv.toBytes = b.drop (b.length - 16) ∧ k.encryptWith iv message = b := by
  have hC := k.algorithm.inverts_withKey k.key
  unfold decrypt at h
  split at h
  · cases h
  · split at h
    · cases h
    · split at h
      · cases h
      · next iv hiv =>
        split at h
        · next m hm =>
          cases h
          have hiv := Block.ofBytes?_eq_some.mp hiv
          have hwhole : (b.take (b.length - 16)).length % 16 = 0 := by
            rw [List.length_take]
            omega
          refine ⟨iv, hiv, ?_⟩
          rw [encryptWith, Cbc.encrypt_eq, Cbc.body_of_decrypt? hC hwhole hm, hiv, List.take_append_drop]
        · cases h

/-- A byte string is decrypted exactly when encryption writes it with the last 16 bytes as its random bytes. -/
theorem decrypt_eq_ok {b message : Bytes} :
    k.decrypt b = .ok message ↔ k.encrypt message (b.drop (b.length - 16)) = .ok (b, []) := by
  rw [encrypt_eq_ok]
  constructor
  · intro h
    obtain ⟨iv, hiv, hb⟩ := k.eq_encryptWith_of_decrypt h
    exact ⟨iv, by rw [List.append_nil, hiv], hb.symm⟩
  · rintro ⟨iv, -, rfl⟩
    exact k.decrypt_encryptWith iv message

/-- The error of a byte string that cannot be decrypted: its length is wrong, or else its padding. -/
def fault (b : Bytes) : CryptoError :=
  if b.length < 32 then .invalidCiphertext (.short b.length)
  else if b.length % 16 ≠ 0 then .invalidCiphertext (.ragged b.length)
  else .invalidPadding

theorem eq_fault_of_decrypt {b : Bytes} {e : CryptoError} (h : k.decrypt b = .error e) : e = fault b := by
  unfold decrypt at h
  unfold fault
  split at h
  · next hshort =>
    cases h
    rw [if_pos hshort]
  · next hshort =>
    rw [if_neg hshort]
    split at h
    · next hragged =>
      cases h
      rw [if_pos hragged]
    · next hragged =>
      rw [if_neg hragged]
      split at h
      · cases h
        rfl
      · split at h
        · cases h
        · cases h
          rfl

/-- Whatever the initial block, a message is decrypted from its encryption, which ends with the initial block. -/
theorem decrypt_encrypt (iv : Block) (message : Bytes) (rest : Entropy) :
    ∃ b, k.encrypt message (iv.toBytes ++ rest) = .ok (b, rest) ∧ k.decrypt b = .ok message ∧
      b.length = 16 * (message.length / 16 + 1) + 16 ∧ b.drop (b.length - 16) = iv.toBytes :=
  ⟨k.encryptWith iv message, k.encrypt_eq_ok.mpr ⟨iv, rfl, rfl⟩, k.decrypt_encryptWith iv message,
    k.length_encryptWith iv message, k.drop_encryptWith iv message⟩

/-- Decryption accepts exactly what encryption writes with the last 16 bytes as its initial block. Of all else, the
length is wrong or the padding. -/
theorem decrypt_exact (b : Bytes) :
    (∀ message, k.decrypt b = .ok message ↔ k.encrypt message (b.drop (b.length - 16)) = .ok (b, [])) ∧
      ∀ e, k.decrypt b = .error e ↔
        (∀ message, k.encrypt message (b.drop (b.length - 16)) ≠ .ok (b, [])) ∧ e = fault b := by
  refine ⟨fun message => k.decrypt_eq_ok, fun e => ⟨fun h => ⟨fun message hm => ?_, k.eq_fault_of_decrypt h⟩, ?_⟩⟩
  · rw [← k.decrypt_eq_ok, h] at hm
    cases hm
  · rintro ⟨hnone, rfl⟩
    cases h : k.decrypt b with
    | ok message => exact absurd (k.decrypt_eq_ok.mp h) (hnone message)
    | error e => rw [k.eq_fault_of_decrypt h]

end CipherKey

end Signet
