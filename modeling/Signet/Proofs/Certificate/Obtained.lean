import Signet.Proofs.Certificate.Chain
import Signet.Proofs.Certificate.Decoding

/-!
# Bundles that can be obtained

A bundle is issued or read. Either way each of its certificates can be written and is read back, so the text of the
bundle stands for the bundle, however many certificates it carries.
-/

namespace Signet

open Der

/-! ## What is read can be written -/

namespace Certificate

theorem writable_of_ofElement? {lenient : Bool} {e : Element} {c : Certificate} (h : ofElement? lenient e = some c)
    (he : e.encode.length ≤ maxLength) : c.Writable :=
  ⟨isValid_of_ofElement? h, (length_encode_le_of_ofElement? h).trans he⟩

/-- The content of a block is not too long, and its certificate is written with no more bytes. -/
theorem writable_of_ofPem? {b : Bytes} {c : Certificate} (h : ofPem? b = some c) : c.Writable := by
  obtain ⟨block, -, hread⟩ := Option.bind_eq_some_iff.mp h
  split at hread
  · next hblock =>
    obtain ⟨⟨e, rest⟩, helement, hread⟩ := Option.bind_eq_some_iff.mp hread
    obtain ⟨-, hcontent⟩ := element?_eq_some.mp helement
    refine writable_of_ofElement? hread (Nat.le_trans ?_ hblock.2)
    rw [hcontent, List.length_append]
    exact Nat.le_add_right _ _
  · cases hread

theorem writable_of_ofBlocks? {b : Bytes} {cs : List Certificate} (h : ofBlocks? b = some cs) :
    ∀ c ∈ cs, c.Writable := by
  fun_induction ofBlocks? b generalizing cs with
  | case1 => cases h
  | case2 b block rest hcut ih =>
    simp only [Option.bind_eq_bind, Option.bind_eq_some_iff] at h
    obtain ⟨c, hc, h⟩ := h
    have hwritable := writable_of_ofPem? hc
    split at h
    · cases h
      exact List.forall_mem_singleton.mpr hwritable
    · obtain ⟨ds, hds, h⟩ := Option.bind_eq_some_iff.mp h
      cases h
      exact List.forall_mem_cons.mpr ⟨hwritable, ih hds⟩

end Certificate

namespace Bundle

variable {b : Bundle}

theorem Writable.of_ofDer {received : Bytes} (h : ofDer received = .ok b) : b.Writable := by
  obtain ⟨e, -, -, hread, hchain⟩ := exists_of_ofDer h
  rw [Writable, hchain]
  exact List.forall_mem_singleton.mpr ⟨Certificate.isValid_of_ofElement? hread, b.short⟩

theorem Writable.of_ofPem {text : Bytes} (h : ofPem text = .ok b) : b.Writable := by
  simp only [ofPem] at h
  split at h
  · cases h
  · split at h
    · next c chain hblocks =>
      obtain ⟨rfl, rfl⟩ := ofCertificate_eq_ok.mp h
      exact Certificate.writable_of_ofBlocks? hblocks
    · cases h

/-! ## Obtained bundles -/

/-- A bundle was issued, under an authority that was obtained, or it was read from an element or from PEM blocks. -/
inductive Obtained : Bundle → Prop
  | issued {info : SubjectInfo} {subject signer : Key} {issuer : Option Bundle} {p : Profile} {now : Nat}
    {entropy rest : Entropy} {b : Bundle} (hca : ∀ ca, issuer = some ca → Obtained ca)
    (h : issue info subject signer issuer p now entropy = .ok (b, rest)) : Obtained b
  | ofDer {received : Bytes} {b : Bundle} (h : Bundle.ofDer received = .ok b) : Obtained b
  | ofPem {text : Bytes} {b : Bundle} (h : Bundle.ofPem text = .ok b) : Obtained b

theorem Obtained.writable (h : b.Obtained) : b.Writable := by
  induction h with
  | issued _ h ih => exact .of_issue h ih
  | ofDer h => exact .of_ofDer h
  | ofPem h => exact .of_ofPem h

end Bundle

theorem Issued.obtained {info : SubjectInfo} {issuer : Option Bundle} {p : Profile} {b : Bundle}
    (h : Issued info issuer p b) (hca : ∀ ca, issuer = some ca → ca.Obtained) : b.Obtained := by
  obtain ⟨_, _, _, _, _, -, hissue⟩ := h
  exact .issued hca hissue

theorem exists_obtained_sample : ∃ ca leaf : Bundle, leaf.Obtained ∧ leaf.chain = [ca.certificate] := by
  obtain ⟨root, ca, leaf, _, hroot, hca, hleaf, -⟩ := exists_sample
  have hrootObtained : root.Obtained := hroot.obtained fun _ heq => nomatch heq
  have hcaObtained : ca.Obtained := hca.obtained fun _ heq => Option.some.inj heq ▸ hrootObtained
  have hself : ca.certificate.isSelfIssued = false := by
    rw [hca.isSelfIssued_eq hroot, beq_eq_false_iff_ne]
    exact fun heq => absurd (SubjectInfo.commonName_congr heq) (by decide)
  refine ⟨ca, leaf, hleaf.obtained fun _ heq => Option.some.inj heq ▸ hcaObtained, ?_⟩
  have hchain : ca.chain = [] := by rw [hca.chain_eq, Issue.chain, if_pos hroot.isSelfIssued_root]
  rw [hleaf.chain_eq, Issue.chain, hself, hchain]
  rfl

/-- The text of an obtained bundle is read as the same bundle: the certificate and those that it carries are the same, in
the same order, so that the bundle that was read is trusted under the same roots at the same times. -/
theorem Bundle.ofPem_toPem_of_obtained {b : Bundle} (h : b.Obtained) : ofPem b.toPem = .ok b :=
  b.ofPem_toPem h.writable

theorem Bundle.ofPem_toPem_of_obtained_sample : ∃ ca leaf : Bundle, leaf.Obtained ∧ leaf.chain = [ca.certificate] ∧
    ofPem leaf.toPem = .ok leaf := by
  obtain ⟨ca, leaf, hleaf, hchain⟩ := exists_obtained_sample
  exact ⟨ca, leaf, hleaf, hchain, ofPem_toPem_of_obtained hleaf⟩

end Signet
