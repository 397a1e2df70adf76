import Signet.Certificate.Issue
import Signet.Proofs.Certificate.Bundle
import Signet.Proofs.Certificate.Layout
import Signet.Proofs.Certificate.Path

/-!
# Certificates that were read

The digest of a certificate and the signature on it are checked against what is written anew. This is what was received
exactly when the layout of the body is strict. In any case it is not longer, and it is read as the same certificate.
-/

namespace Signet

open Der

theorem Der.Element.Fits.encode_inj {e f : Element} (he : e.Fits) (hf : f.Fits) (h : e.encode = f.encode) : e = f := by
  have hread := Element.ofBytes?_encode he
  rw [h, Element.ofBytes?_encode hf, Option.some.injEq] at hread
  exact hread.symm

namespace Certificate

open CertificateBody

variable {c : Certificate} {e : Element} {lenient : Bool}

/-- What a certificate is read from: its algorithm and its signature behind a layout of its body. -/
theorem exists_layout (h : ofElement? lenient e = some c) : ∃ l : Layout, l.Reads c.body ∧
    e.parts? sequenceTag = some [l.toElement, c.algorithm.toElement, .ofBitString c.signature] ∧
    c.algorithm.IsValid ∧ c.signature.IsValid := by
  obtain ⟨es, hes, hread⟩ := Option.bind_eq_some_iff.mp h
  split at hread
  · simp only [Option.bind_eq_bind, Option.bind_eq_some_iff] at hread
    obtain ⟨body, hbody, algorithm, halgorithm, signature, hsignature, hread⟩ := hread
    cases hread
    obtain ⟨l, rfl, hl⟩ := CertificateBody.exists_layout hbody
    obtain ⟨rfl, hvalid⟩ := AlgorithmIdentifier.eq_toElement_of_ofElement? halgorithm
    obtain ⟨rfl, hvalid'⟩ := Element.eq_ofBitString_of_bitString? hsignature
    exact ⟨l, hl, hes, hvalid, hvalid'⟩
  · cases hread

theorem isValid_of_ofElement? (h : ofElement? lenient e = some c) : c.IsValid := by
  obtain ⟨l, hl, -, halgorithm, hsignature⟩ := exists_layout h
  exact ⟨hl.isValid, halgorithm, hsignature⟩

theorem length_encode_le_of_ofElement? (h : ofElement? lenient e = some c) : c.encode.length ≤ e.encode.length := by
  obtain ⟨l, hl, hparts, -⟩ := exists_layout h
  rw [(Element.parts?_eq_some.mp hparts).2]
  exact Element.length_node_mono
    (length_encodeAll_of_forall₂ (.cons hl.length_encode_toElement_le (.cons le_rfl (.cons le_rfl .nil))))

theorem toElement_eq_iff (h : c.toElement.Fits) {l : Layout} (hl : l.Reads c.body)
    (hparts : e.parts? sequenceTag = some [l.toElement, c.algorithm.toElement, .ofBitString c.signature]) :
    c.toElement = e ↔ l.IsStrict := by
  have hbody : c.body.toElement.Fits := h.part (by simp) rfl
  rw [← hl.toElement_eq_iff hbody]
  constructor
  · rintro rfl
    rw [parts?_toElement h] at hparts
    exact (List.cons.inj (Option.some.inj hparts)).1
  · intro heq
    rw [toElement, heq, (Element.parts?_eq_some.mp hparts).2, Element.sequence]

theorem Writable.fits (h : c.Writable) : c.toElement.Fits := .of_encode rfl h.short

theorem decode?_encode (h : c.Writable) : decode? c.encode = some c := by
  rw [decode?, encode, Element.ofBytes?_encode h.fits, Option.bind_some, ofElement?_toElement h.fits h.valid]

end Certificate

/-! ## Bundles -/

namespace Bundle

variable {c : Bundle}

theorem exists_of_ofDer {b : Bytes} (h : ofDer b = .ok c) :
    ∃ e : Element, e.Fits ∧ b = e.encode ∧ Certificate.ofElement? true e = some c.certificate ∧ c.chain = [] := by
  unfold ofDer at h
  split at h
  · next hread =>
    obtain ⟨rfl, hchain⟩ := ofCertificate_eq_ok.mp h
    obtain ⟨e, he, hread⟩ := Option.bind_eq_some_iff.mp hread
    obtain ⟨hfits, hb⟩ := Element.ofBytes?_eq_some.mp he
    exact ⟨e, hfits, hb, hread, hchain⟩
  · cases h

theorem ofDer_encode (h : c.certificate.Writable) : ofDer c.certificate.encode = .ok { c with chain := [] } := by
  simp only [ofDer, Certificate.decode?_encode h]
  exact ofCertificate_eq_ok.mpr ⟨rfl, rfl⟩

/-- A certificate is written as it was received exactly when the layout of its body is strict. Then its digest and the
signature on it are those of the bytes that were received. What is written instead is read as the same certificate. -/
theorem ofDer_exact {received : Bytes} (h : ofDer received = .ok c) :
    ∃ l : CertificateBody.Layout,
      received = (Element.sequence [l.toElement, c.certificate.algorithm.toElement,
        .ofBitString c.certificate.signature]).encode ∧
      (c.certificate.encode = received ↔ l.IsStrict) ∧
      (l.IsStrict → c.fingerprint = (c.suite.hash received).hex ∧
        ∀ parent : Certificate, c.certificate.isSignedBy parent = true ↔
          ∃ k, Key.ofPublicInfo parent.body.publicKey = .ok k ∧
            c.certificate.algorithm.algorithm = k.suite.signatureOid ∧
            k.verify l.toElement.encode c.certificate.signature.bytes = .ok ()) ∧
      ofDer c.certificate.encode = .ok c := by
  obtain ⟨e, hfits, rfl, hread, hchain⟩ := exists_of_ofDer h
  obtain ⟨l, hl, hparts, -⟩ := Certificate.exists_layout hread
  have hwritable : c.certificate.Writable := ⟨Certificate.isValid_of_ofElement? hread, c.short⟩
  have hstrict : c.certificate.encode = e.encode ↔ l.IsStrict := by
    rw [← Certificate.toElement_eq_iff hwritable.fits hl hparts]
    exact ⟨hwritable.fits.encode_inj hfits, congrArg Element.encode⟩
  refine ⟨l, by rw [(Element.parts?_eq_some.mp hparts).2, Element.sequence], hstrict, fun hs => ⟨?_, fun parent => ?_⟩, ?_⟩
  · rw [fingerprint, hstrict.mpr hs]
  · rw [Certificate.isSignedBy_iff, CertificateBody.encode, ← hl.eq_toElement hs]
  · rw [ofDer_encode hwritable, ← hchain]

end Bundle

/-! ## Received certificates -/

namespace CertificateBody.Layout

/-- A body for the private key 1, with an extension that is not critical. -/
def plain : Layout where
  version := some (.node (constructedTag 0) [.ofNat 2])
  serial := .ofNat 1
  algorithm := Suite.ecdsaP256.signatureAlgorithm.toElement
  issuer := Name.toElement (.ofTexts [(.commonName, "ca")])
  validity := Validity.toElement ⟨.general ⟨1970, 1, 1, 0, 0, 0⟩, .general ⟨2049, 12, 31, 23, 59, 59⟩⟩
  subject := Name.toElement (.ofTexts [(.commonName, "plain")])
  publicKey := (Key.publicInfo .ecdsaP256 (Key.ofScalar .ecdsaP256 1).point).toElement
  fields := [.node (constructedTag 3) [.sequence [.sequence [.ofOid .subjectKeyId, .ofOctets [4, 1, 0]]]]]
  version_tag := by
    rintro f ⟨⟩
    rfl
  serial_tag := rfl

/-- The first version, which need not be written. -/
def firstVersion : Layout := { plain with
  version := some (.node (constructedTag 0) [.ofNat 0])
  version_tag := by
    rintro f ⟨⟩
    rfl }

/-- The extension says that it is not critical. -/
def remark : Layout := { plain with
  fields := [.node (constructedTag 3)
    [.sequence [.sequence [.ofOid .subjectKeyId, .ofBool false, .ofOctets [4, 1, 0]]]]] }

/-- An empty field stands before the extension. -/
def passedOver : Layout := { plain with fields := ⟨primitiveTag 0, []⟩ :: plain.fields }

/-- A certificate with an empty signature, as it is received. -/
def unsignedDer (l : Layout) : Bytes :=
  (Element.sequence [l.toElement, Suite.ecdsaP256.signatureAlgorithm.toElement, .ofBitString (.ofBytes [])]).encode

end CertificateBody.Layout

namespace Bundle

open CertificateBody.Layout

theorem ofDer_exact_plain : ∃ c, ofDer plain.unsignedDer = .ok c ∧ c.certificate.encode = plain.unsignedDer ∧
    c.fingerprint = (c.suite.hash plain.unsignedDer).hex := by
  have hread : ∃ c, ofDer plain.unsignedDer = .ok c ∧ c.certificate.encode = plain.unsignedDer :=
    exists_of_any (by decide +kernel)
  obtain ⟨c, hc, hencode⟩ := hread
  obtain ⟨l, -, hstrict, hsame, -⟩ := ofDer_exact hc
  exact ⟨c, hc, hencode, (hsame (hstrict.mp hencode)).1⟩

/-- A certificate that is not written as it was received, and so has another digest. -/
def Altered (received : Bytes) : Prop :=
  ∃ c, ofDer received = .ok c ∧ c.certificate.encode ≠ received ∧ c.fingerprint ≠ (c.suite.hash received).hex

/-- A first version, a remark that an extension is not critical and a field that is passed over all get lost. -/
theorem ofDer_altered : Altered firstVersion.unsignedDer ∧ Altered remark.unsignedDer ∧ Altered passedOver.unsignedDer :=
  ⟨exists_of_any (by decide +kernel), exists_of_any (by decide +kernel), exists_of_any (by decide +kernel)⟩

end Bundle

end Signet
