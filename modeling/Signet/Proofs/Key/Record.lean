import Signet.Key.Encoding
import Signet.Proofs.Der.Record

/-!
# Key records that were written

The record of a private key holds an inner record with the scalar and the point. Both are read back from what was
written.
-/

namespace Signet

open Der

/-! ## The inner record of a private key -/

namespace EcPrivateKey

def pointField (p : Bytes) : Element := .node (constructedTag 1) [.ofBitString (.ofBytes p)]

def toElement (k : EcPrivateKey) : Element :=
  .sequence (.ofNat 1 :: .ofOctets k.scalar :: k.point.toList.map pointField)

theorem isField_pointTag : isField (constructedTag 1) = true ∧ fieldNumber (constructedTag 1) = 1 := by decide

theorem field?_zero_pointField (p : Bytes) : field? 0 [pointField p] = (none, [pointField p]) := by
  have htag : (pointField p).tag = constructedTag 1 := rfl
  simp [field?, htag, isField_pointTag]

theorem field?_one_pointField (p : Bytes) : field? 1 [pointField p] = (some (pointField p), []) := by
  have htag : (pointField p).tag = constructedTag 1 := rfl
  simp [field?, htag, isField_pointTag]

theorem ofElement?_toElement {k : EcPrivateKey} (h : k.toElement.Fits) : ofElement? k.toElement = some k := by
  obtain ⟨scalar, _ | p⟩ := k
  · have hparts : (toElement ⟨scalar, none⟩).parts? sequenceTag = some [.ofNat 1, .ofOctets scalar] :=
      h.parts? (by simp only [List.forall_mem_cons]; exact ⟨rfl, rfl, nofun⟩)
    simp only [ofElement?, hparts, Option.bind_eq_bind, Option.bind_some, Element.nat?_ofNat, Element.octets?_ofOctets]
    rfl
  · have hnode : (Element.node sequenceTag [.ofNat 1, .ofOctets scalar, pointField p]).Fits := h
    have hknown : isKnownTag (pointField p).tag = true := (by decide : isKnownTag (constructedTag 1) = true)
    have hparts : (toElement ⟨scalar, some p⟩).parts? sequenceTag = some [.ofNat 1, .ofOctets scalar, pointField p] :=
      hnode.parts? (by simp only [List.forall_mem_cons]; exact ⟨rfl, rfl, hknown, nofun⟩)
    have hfield : (pointField p).Fits := hnode.part (by simp) hknown
    have hpoint : (pointField p).explicit? 1 = some (.ofBitString (.ofBytes p)) := by
      have hinner : (pointField p).parts? (constructedTag 1) = some [.ofBitString (.ofBytes p)] :=
        hfield.parts? (List.forall_mem_singleton.mpr rfl)
      simp only [Element.explicit?, hinner, Option.bind_eq_bind, Option.bind_some]
    have hwhole : (BitString.ofBytes p).whole? = some p := rfl
    simp only [ofElement?, hparts, Option.bind_eq_bind, Option.bind_some, Element.nat?_ofNat, Element.octets?_ofOctets,
      field?_zero_pointField, field?_one_pointField, hpoint,
      Element.bitString?_ofBitString (BitString.isValid_ofBytes p), hwhole]
    rfl

theorem decode?_encode {k : EcPrivateKey} (h : k.toElement.Fits) : decode? k.encode = some k := by
  have hread : Element.ofBytes? k.encode = some k.toElement := Element.ofBytes?_encode h
  rw [decode?, hread, Option.bind_some, ofElement?_toElement h]

end EcPrivateKey

/-! ## The record around it -/

theorem PrivateKeyInfo.decode?_toElement {k : PrivateKeyInfo} (h : k.toElement.Fits) (hv : k.algorithm.IsValid) :
    decode? k.toElement.encode = some k := by
  have hparts : k.toElement.parts? sequenceTag = some [.ofNat 0, k.algorithm.toElement, .ofOctets k.key] :=
    h.parts? (by simp only [List.forall_mem_cons]; exact ⟨rfl, rfl, rfl, nofun⟩)
  have halgorithm : k.algorithm.toElement.Fits := h.part (by simp) rfl
  rw [decode?, Element.ofBytes?_encode h, Option.bind_some]
  simp only [ofElement?, hparts, Option.bind_eq_bind, Option.bind_some, Element.nat?_ofNat, Element.octets?_ofOctets,
    AlgorithmIdentifier.ofElement?_toElement halgorithm hv]
  rfl

end Signet
