import Signet.Proofs.Certificate.Lineage
import Mathlib.Data.List.TakeWhile

/-!
# Carried chains

A bundle carries the certificates of the authorities above it up to the first one that is its own issuer by name. That
is the whole line below the root exactly when no intermediate authority has the name of its issuer.
-/

namespace Signet

/-- All certificates of a bundle are read back from their written forms. -/
def Bundle.Writable (b : Bundle) : Prop := ∀ c ∈ b.certificate :: b.chain, c.Writable

/-- What an authority is when it is used again: the same bundle, or what is read from its written form. -/
inductive Handed (b : Bundle) : Bundle → Prop
  | kept : Handed b b
  | reread {b' : Bundle} (h : Bundle.ofPem b.toPem = .ok b') : Handed b b'

theorem Handed.eq {b b' : Bundle} (h : Handed b b') (hb : b.Writable) : b' = b := by
  cases h with
  | kept => rfl
  | reread h =>
    rw [b.ofPem_toPem hb, Except.ok.injEq] at h
    exact h.symm

/-- The intermediate authorities below a root, the newest one first. Each may be written and read back before the next
one is issued. -/
inductive History (root : Authority) : List Authority → Prop
  | root (h : Issued root.info none .root root.bundle) : History root []
  | intermediate {a : Authority} {line : List Authority} {ca : Bundle} (h : History root line)
    (hca : Handed (newest root line).bundle ca) (ha : Issued a.info (some ca) .intermediate a.bundle) :
    History root (a :: line)

/-- The certificates of a line. -/
def certificates (line : List Authority) : List Certificate := line.map fun a => a.bundle.certificate

/-! ## What one step carries -/

theorem Issued.chain_eq {info : SubjectInfo} {issuer : Option Bundle} {p : Profile} {b : Bundle}
    (h : Issued info issuer p b) : b.chain = Issue.chain issuer := by
  obtain ⟨subject, signer, now, entropy, rest, -, hissue⟩ := h
  exact (Issue.drafted_of_issue hissue).2.2.2

theorem Bundle.Writable.of_issue {info : SubjectInfo} {subject signer : Key} {issuer : Option Bundle} {p : Profile}
    {now : Nat} {entropy rest : Entropy} {b : Bundle} (h : issue info subject signer issuer p now entropy = .ok (b, rest))
    (hca : ∀ ca, issuer = some ca → ca.Writable) : b.Writable := by
  have hcertificate := writable_of_issue h fun ca heq => (hca ca heq ca.certificate (List.mem_cons_self ..)).valid
  obtain ⟨-, -, -, hchain⟩ := Issue.drafted_of_issue h
  refine List.forall_mem_cons.mpr ⟨hcertificate, fun c hc => ?_⟩
  rw [hchain] at hc
  cases issuer with
  | none => cases hc
  | some ca =>
    rw [Issue.chain] at hc
    split at hc
    · cases hc
    · exact hca ca rfl c hc

theorem Issued.writable {info : SubjectInfo} {issuer : Option Bundle} {p : Profile} {b : Bundle}
    (h : Issued info issuer p b) (hca : ∀ ca, issuer = some ca → ca.Writable) : b.Writable := by
  obtain ⟨_, _, _, _, _, -, hissue⟩ := h
  exact .of_issue hissue hca

/-- A root certificate names itself. -/
theorem Issued.isSelfIssued_root {info : SubjectInfo} {b : Bundle} (h : Issued info none .root b) :
    b.certificate.isSelfIssued = true := by
  obtain ⟨subject, signer, now, entropy, rest, -, hissue⟩ := h
  obtain ⟨hdrafted, -⟩ := Issue.drafted_of_issue hissue
  rw [Certificate.isSelfIssued, hdrafted.subjectName, Issue.issuerName_root_eq_ok hdrafted.issuerName]
  exact beq_self_eq_true _

theorem Issued.isSelfIssued_eq {info caInfo : SubjectInfo} {issuer : Option Bundle} {p q : Profile} {ca b : Bundle}
    (hb : Issued info (some ca) p b) (hca : Issued caInfo issuer q ca) :
    b.certificate.isSelfIssued = (info.name == caInfo.name) := by
  obtain ⟨_, -, hissues⟩ := hb.issues
  obtain ⟨_, -, hcaIssues⟩ := hca.issues
  rw [Certificate.isSelfIssued, hissues.subject, (hissues.under ca rfl).1, hcaIssues.subject]

/-! ## What a history carries -/

theorem History.writable {root : Authority} {line : List Authority} (h : History root line) :
    (newest root line).bundle.Writable := by
  induction h with
  | root h => exact h.writable fun ca heq => nomatch heq
  | intermediate _ hca ha ih =>
    refine ha.writable ?_
    rintro _ ⟨⟩
    rw [hca.eq ih]
    exact ih

/-- Reading an authority back changes nothing, so a history is a line of authorities. -/
theorem History.lineage {root : Authority} {line : List Authority} (h : History root line) : Lineage root line := by
  induction h with
  | root h => exact .root h
  | intermediate h hca ha ih =>
    rw [hca.eq h.writable] at ha
    exact .intermediate ih ha

theorem Lineage.chain_eq {root : Authority} {line : List Authority} (h : Lineage root line) {info : SubjectInfo}
    {p : Profile} {b : Bundle} (hb : Issued info (some (newest root line).bundle) p b) :
    b.chain = (certificates line).takeWhile fun c => !c.isSelfIssued := by
  induction h generalizing info p b with
  | root hroot =>
    have hself : (newest root []).bundle.certificate.isSelfIssued = true := hroot.isSelfIssued_root
    rw [hb.chain_eq, Issue.chain, if_pos hself]
    rfl
  | @intermediate a line h ha ih =>
    have hnewest : newest root (a :: line) = a := rfl
    rw [hb.chain_eq, Issue.chain, hnewest, certificates, List.map_cons, List.takeWhile_cons, ← certificates, ← ih ha]
    cases a.bundle.certificate.isSelfIssued with
    | false | true => rfl

/-! ## A sample history -/

theorem Issued.congr {info : SubjectInfo} {p : Profile} {ca ca' b : Bundle} (h : SameAuthority ca ca')
    (hb : Issued info (some ca) p b) : ∃ b', Issued info (some ca') p b' ∧ b'.certificate = b.certificate := by
  obtain ⟨subject, signer, now, entropy, rest, hsigner, hissue⟩ := hb
  exact ⟨_, ⟨subject, signer, now, entropy, rest, hsigner, Issue.issue_congr h hissue⟩, rfl⟩

/-- The leaf of the sample line can be issued under the renewed authority as well. -/
theorem exists_renewed : ∃ root ca renewed leaf : Bundle,
    Issued (sampleInfo "root") none .root root ∧ Issued (sampleInfo "ca") (some root) .intermediate ca ∧
      Issued (sampleInfo "ca") (some ca) .intermediate renewed ∧ Issued (sampleInfo "leaf") (some renewed) .leaf leaf ∧
      ∀ b ∈ [root, ca, renewed, leaf], b.certificate.isValidAt 1 = true := by
  obtain ⟨root, ca, leaf, renewed, hroot, hca, hleaf, hrenewed, hsame, hvalid⟩ := exists_sample
  obtain ⟨leaf', hleaf', hcertificate⟩ := hleaf.congr hsame
  have hvalid' : leaf'.certificate.isValidAt 1 = true := by rw [hcertificate, hvalid leaf (by simp)]
  refine ⟨root, ca, renewed, leaf', hroot, hca, hrenewed, hleaf', ?_⟩
  simp [hvalid', hvalid]

/-! ## The carried chain -/

/-- What is issued at the end of a history carries the line below the root up to the first authority that is its own
issuer by name, so the whole line if there is none, and then this is all that a check needs. -/
theorem Bundle.carried_exact {root : Authority} {line : List Authority} (h : History root line) {ca : Bundle}
    (hca : Handed (newest root line).bundle ca) {info : SubjectInfo} {p : Profile} {b : Bundle}
    (hb : Issued info (some ca) p b) :
    b.chain = (certificates line).takeWhile (fun c => !c.isSelfIssued) ∧
      (b.chain = certificates line ↔ ∀ c ∈ certificates line, c.isSelfIssued = false) ∧
      (∀ intermediates : List Bundle, intermediates.Perm (line.map Authority.bundle) → ∀ now,
        (b.chain = certificates line → b.check [root.bundle] [] now = b.check [root.bundle] intermediates now) ∧
        ∀ organization, b.check [root.bundle] [] now = .ok organization →
          b.check [root.bundle] intermediates now = .ok organization) ∧
      ofPem b.toPem = .ok b := by
  have hwritable := h.writable
  rw [hca.eq hwritable] at hb
  have hchain := h.lineage.chain_eq hb
  refine ⟨hchain, ?whole, ?check, b.ofPem_toPem (hb.writable ?_)⟩
  case whole =>
    rw [hchain, List.takeWhile_eq_self_iff]
    simp only [Bool.not_eq_true']
  case check =>
    intro intermediates hperm now
    have hmem : ∀ c, c ∈ intermediates.map Bundle.certificate ↔ c ∈ certificates line := fun c => by
      rw [(hperm.map Bundle.certificate).mem_iff, List.map_map]
      rfl
    refine ⟨fun hwhole => check_root_congr now fun c => ?_, fun organization => check_root_mono fun c hc => ?_⟩
    · rw [List.mem_append, List.mem_append, hmem, hwhole]
      simp
    · rw [List.map_nil, List.append_nil] at hc
      exact List.mem_append_left _ hc
  · rintro _ ⟨⟩
    exact hwritable

theorem Bundle.carried_exact_sample : ∃ root ca leaf : Bundle,
    History ⟨sampleInfo "root", root⟩ [⟨sampleInfo "ca", ca⟩] ∧ ofPem ca.toPem = .ok ca ∧
      Issued (sampleInfo "leaf") (some ca) .leaf leaf ∧ leaf.chain = [ca.certificate] ∧
      leaf.check [root] [] 1 = leaf.check [root] [ca] 1 := by
  obtain ⟨root, ca, leaf, _, hroot, hca, hleaf, -⟩ := exists_sample
  have hhistory : History ⟨sampleInfo "root", root⟩ [⟨sampleInfo "ca", ca⟩] := .intermediate (.root hroot) .kept hca
  have hread : ofPem ca.toPem = .ok ca := ca.ofPem_toPem hhistory.writable
  obtain ⟨-, hwhole, hcheck, -⟩ := carried_exact hhistory (.reread hread) hleaf
  have hchain : leaf.chain = [ca.certificate] := by
    refine hwhole.mpr (List.forall_mem_singleton.mpr ?_)
    rw [hca.isSelfIssued_eq hroot, beq_eq_false_iff_ne]
    exact fun heq => absurd (SubjectInfo.commonName_congr heq) (by decide)
  exact ⟨root, ca, leaf, hhistory, hread, hleaf, hchain, (hcheck [ca] (.refl _) 1).1 hchain⟩

/-- An authority that was issued anew under itself is left out of the chain together with all above it, and what it
issues is not trusted without further certificates. -/
theorem Bundle.carried_chain_cut : ∃ root ca renewed leaf : Bundle,
    History ⟨sampleInfo "root", root⟩ [⟨sampleInfo "ca", renewed⟩, ⟨sampleInfo "ca", ca⟩] ∧
      Issued (sampleInfo "leaf") (some renewed) .leaf leaf ∧ leaf.chain = [] ∧
      leaf.check [root] [] 1 = .error (.untrusted leaf.commonName?) ∧ leaf.check [root] [ca, renewed] 1 = .ok "Org" := by
  obtain ⟨root, ca, renewed, leaf, hroot, hca, hrenewed, hleaf, hvalid⟩ := exists_renewed
  have hself : renewed.certificate.isSelfIssued = true := by
    rw [hrenewed.isSelfIssued_eq hca]
    exact beq_self_eq_true _
  have hchain : leaf.chain = [] := by
    rw [hleaf.chain_eq, Issue.chain, if_pos hself]
  obtain ⟨_, -, hrootIssues⟩ := hroot.issues
  obtain ⟨_, -, hrenewedIssues⟩ := hrenewed.issues
  obtain ⟨_, -, hleafIssues⟩ := hleaf.issues
  have hlineage : Lineage ⟨sampleInfo "root", root⟩ [⟨sampleInfo "ca", renewed⟩, ⟨sampleInfo "ca", ca⟩] :=
    .intermediate (.intermediate (.root hroot) hca) hrenewed
  refine ⟨root, ca, renewed, leaf, .intermediate (.intermediate (.root hroot) .kept hca) .kept hrenewed, hleaf, hchain,
    ?untrusted, ?trusted⟩
  case untrusted =>
    refine check_root_of_chain_eq_nil 1 hchain (fun heq => ?_) fun hname => ?_
    · have hname := hleafIssues.subject
      rw [heq, hrootIssues.subject] at hname
      exact absurd (SubjectInfo.commonName_congr hname) (by decide)
    · rw [(hleafIssues.under renewed rfl).1, hrenewedIssues.subject, hrootIssues.subject] at hname
      exact absurd (SubjectInfo.commonName_congr hname) (by decide)
  case trusted =>
    have hothers : others [⟨sampleInfo "ca", renewed⟩, ⟨sampleInfo "ca", ca⟩] ≤ 1 := by
      rw [others, List.countP_cons_of_neg (by simp [hself])]
      exact List.countP_le_length
    have hwithin : Within 0 ([⟨sampleInfo "ca", renewed⟩, ⟨sampleInfo "ca", ca⟩] ++ [⟨sampleInfo "root", root⟩]) := by
      refine within_of_others_le fun a ha m hm => ?_
      have hlimit : a.info.maxPathLength = some 1 := by
        simp only [List.mem_append, List.mem_cons, List.not_mem_nil, or_false] at ha
        rcases ha with (rfl | rfl) | rfl <;> rfl
      obtain rfl : 1 = m := by simpa [hlimit] using hm
      exact (Nat.zero_add _).trans_le hothers
    have hnow : ∀ a ∈ [⟨sampleInfo "ca", renewed⟩, ⟨sampleInfo "ca", ca⟩] ++ [(⟨sampleInfo "root", root⟩ : Authority)],
        a.bundle.certificate.isValidAt 1 = true := by
      simp [hvalid]
    have hpool : ∀ a ∈ [(⟨sampleInfo "ca", renewed⟩ : Authority), ⟨sampleInfo "ca", ca⟩],
        a.bundle.certificate ∈ leaf.chain ++ [ca, renewed].map Bundle.certificate := by
      simp
    have hshort : [(⟨sampleInfo "ca", renewed⟩ : Authority), ⟨sampleInfo "ca", ca⟩].length < Certificate.maxDepth + 1 := by
      simp [Certificate.maxDepth]
    have hleads := hlineage.leads hpool hnow hleaf (hvalid leaf (by simp)) hwithin hshort
    refine check_root_eq_ok.mpr ⟨hleads, ?_⟩
    rw [organization?, Bundle.subject, hrootIssues.subject, SubjectInfo.organization_of_name]
    rfl

end Signet
