import Signet.Proofs.Certificate.Issue

/-!
# Lines of authorities

A line of authorities starts at a root, and each further authority is issued under the one before it. What the last one
issues is trusted where the root is, as long as the line is not too long and no authority has too many others below it.
-/

namespace Signet

/-- The bundle that was issued for some subject data. -/
structure Authority where
  info : SubjectInfo
  bundle : Bundle

/-- A bundle was issued for the given subject data and issuer by a key that can be made, to any key at any time. -/
def Issued (info : SubjectInfo) (issuer : Option Bundle) (p : Profile) (b : Bundle) : Prop :=
  ∃ (subject signer : Key) (now : Nat) (entropy rest : Entropy),
    signer.Made ∧ issue info subject signer issuer p now entropy = .ok (b, rest)

/-- The newest authority of a line, in which newer ones come first and the root is left out. -/
def newest (root : Authority) (line : List Authority) : Authority := line.headD root

/-- The intermediate authorities below a root, each issued under the one that follows it in the list. -/
inductive Lineage (root : Authority) : List Authority → Prop
  | root (h : Issued root.info none .root root.bundle) : Lineage root []
  | intermediate {a : Authority} {line : List Authority} (h : Lineage root line)
    (ha : Issued a.info (some (newest root line).bundle) .intermediate a.bundle) : Lineage root (a :: line)

/-- How many authorities of a list are not their own issuers. -/
def others (line : List Authority) : Nat := line.countP fun a => !a.bundle.certificate.isSelfIssued

/-- No authority of a line has more others below it than it allows, where `below` others are below the newest one. -/
def Within (below : Nat) (line : List Authority) : Prop :=
  ∀ later a earlier, line = later ++ a :: earlier → ∀ m, a.info.maxPathLength = some m → below + others later ≤ m.toNat

theorem Within.mono {below below' : Nat} {line : List Authority} (h : Within below' line) (hle : below ≤ below') :
    Within below line := fun later a earlier hline m hm =>
  (Nat.add_le_add_right hle _).trans (h later a earlier hline m hm)

theorem Within.head {below : Nat} {a : Authority} {line : List Authority} (h : Within below (a :: line)) :
    ∀ m, a.info.maxPathLength = some m → below ≤ m.toNat := fun m hm => h [] a line rfl m hm

theorem Within.tail {below : Nat} {a : Authority} {line : List Authority} (h : Within below (a :: line)) :
    Within (Certificate.above below a.bundle.certificate) line := by
  intro later a' earlier hline m hm
  have hle := h (a :: later) a' earlier (by rw [hline, List.cons_append]) m hm
  rw [others, List.countP_cons, ← others] at hle
  rw [Certificate.above]
  cases hself : a.bundle.certificate.isSelfIssued with
  | false =>
    simp [hself] at hle ⊢
    omega
  | true => simpa [hself] using hle

/-- The authorities of a line that are not their own issuers are all that can be below one of it. -/
theorem within_of_others_le {below : Nat} {line : List Authority} {root : Authority}
    (h : ∀ a ∈ line ++ [root], ∀ m, a.info.maxPathLength = some m → below + others line ≤ m.toNat) :
    Within below (line ++ [root]) := by
  intro later a earlier hline m hm
  have hprefix : later <+: line := by
    rcases List.append_eq_append_iff.mp hline with ⟨rest, rfl, hrest⟩ | ⟨rest, rfl, -⟩
    · cases rest with
      | nil => rw [List.append_nil]
      | cons x rest => simpa using congrArg List.length hrest
    · exact List.prefix_append ..
  have hle : others later ≤ others line := hprefix.sublist.countP_le
  have hmem : a ∈ line ++ [root] := by simp [hline]
  exact (Nat.add_le_add_left hle below).trans (h a hmem m hm)

theorem Lineage.rooted {root : Authority} {line : List Authority} (h : Lineage root line) :
    Issued root.info none .root root.bundle := by
  induction h with
  | root hroot => exact hroot
  | intermediate _ _ ih => exact ih

theorem Issued.issues {info : SubjectInfo} {issuer : Option Bundle} {p : Profile} {b : Bundle}
    (h : Issued info issuer p b) : ∃ signer, signer.Made ∧ Issues info signer issuer p b := by
  obtain ⟨subject, signer, now, entropy, rest, hsigner, hissue⟩ := h
  exact ⟨signer, hsigner, issues_of_issue hissue⟩

/-- The induction goes up the line. A certificate that equals the one of its issuer is passed over, as the search does
not go from a certificate to an equal one. -/
theorem Lineage.leads {root : Authority} {line : List Authority} (h : Lineage root line) {pool : List Certificate}
    {now : Int} (hpool : ∀ a ∈ line, a.bundle.certificate ∈ pool)
    (hnow : ∀ a ∈ line ++ [root], a.bundle.certificate.isValidAt now = true) {info : SubjectInfo} {p : Profile}
    {b : Bundle} (hb : Issued info (some (newest root line).bundle) p b) (hvalid : b.certificate.isValidAt now = true)
    {below steps : Nat} (hwithin : Within below (line ++ [root])) (hsteps : line.length < steps) :
    Certificate.Leads pool [root.bundle] now steps b.certificate below root.bundle := by
  induction h generalizing info p b below steps with
  | root hroot =>
    obtain ⟨signer, hsigner, hissues⟩ := hb.issues
    obtain ⟨_, -, hca⟩ := hroot.issues
    have hlink := hissues.links hsigner hca (fun m hm => hwithin.head m hm)
    have hends : Certificate.Ends now below b.certificate root.bundle :=
      .inr ⟨hca.usable (hnow root (by simp)), hlink⟩
    exact ⟨fun _ => b.certificate, 0, rfl, by omega, .single (hissues.usable hvalid), by simp, hends⟩
  | @intermediate a line hline ha ih =>
    obtain ⟨signer, hsigner, hissues⟩ := hb.issues
    obtain ⟨_, -, hca⟩ := ha.issues
    have hlink := hissues.links hsigner hca (fun m hm => hwithin.head m hm)
    rw [List.length_cons] at hsteps
    have hup : ∀ {below' steps' : Nat}, Within below' (line ++ [root]) → line.length < steps' →
        Certificate.Leads pool [root.bundle] now steps' a.bundle.certificate below' root.bundle :=
      fun hwithin' hsteps' =>
        ih (fun a' ha' => hpool a' (List.mem_cons_of_mem _ ha')) (fun a' ha' => hnow a' (List.mem_cons_of_mem _ ha')) ha
          (hnow a (List.mem_cons_self ..)) hwithin' hsteps'
    by_cases heq : a.bundle.certificate = b.certificate
    · rw [← heq]
      exact hup (hwithin.tail.mono (Certificate.le_above ..)) (by omega)
    · obtain ⟨rest, rfl⟩ : ∃ rest, steps = rest + 1 := ⟨steps - 1, by omega⟩
      exact (hup hwithin.tail (by omega)).prepend (hissues.usable hvalid) (hpool a (List.mem_cons_self ..)) heq hlink

/-! ## A sample line -/

/-- Subject data for one year, with at most one further authority below. -/
def sampleInfo (commonName : String) : SubjectInfo where
  organization := "Org"
  commonName := commonName
  years := 1
  maxPathLength := some 1

def sampleKey (d : Nat) : Key := .ofScalar .ecdsaP256 d

theorem made_sampleKey {d : Nat} (hd : 1 ≤ d ∧ d < Curve.p256.n) : (sampleKey d).Made :=
  Key.made_ofScalar .ecdsaP256 hd.1 hd.2

/-- The body without leave to sign certificates: the key usage, the first extension of what was issued, names digital
signatures only. -/
def CertificateBody.weaken (b : CertificateBody) : CertificateBody := { b with
  extensions := b.extensions.map fun xs =>
    .ofContent .keyUsage true (KeyUsage.toElement [.digitalSignature]) :: xs.tail }

/-- Issues a root, an intermediate authority and a leaf with the private keys 1, 2 and 3. The authority is issued anew
under itself too, and weakened. -/
def issueSample : Except CertificateError Unit := do
  let (root, e) ← issue (sampleInfo "root") (sampleKey 1) (sampleKey 1) none .root 0 (List.replicate 48 7)
  let (ca, e) ← issue (sampleInfo "ca") (sampleKey 2) (sampleKey 1) (some root) .intermediate 0 e
  let _ ← issue (sampleInfo "leaf") (sampleKey 3) (sampleKey 2) (some ca) .leaf 0 e
  let _ ← issue (sampleInfo "ca") (sampleKey 2) (sampleKey 2) (some ca) .intermediate 0 (List.replicate 16 7)
  let _ ← Issue.unsigned ca.certificate.body.weaken

theorem isOk_issueSample : issueSample.isOk = true := by decide +kernel

theorem exists_issue_sample : ∃ (root ca leaf renewed weak : Bundle) (e₁ e₂ e₃ e₄ : Entropy),
    issue (sampleInfo "root") (sampleKey 1) (sampleKey 1) none .root 0 (List.replicate 48 7) = .ok (root, e₁) ∧
      issue (sampleInfo "ca") (sampleKey 2) (sampleKey 1) (some root) .intermediate 0 e₁ = .ok (ca, e₂) ∧
      issue (sampleInfo "leaf") (sampleKey 3) (sampleKey 2) (some ca) .leaf 0 e₂ = .ok (leaf, e₃) ∧
      issue (sampleInfo "ca") (sampleKey 2) (sampleKey 2) (some ca) .intermediate 0 (List.replicate 16 7)
        = .ok (renewed, e₄) ∧
      Issue.unsigned ca.certificate.body.weaken = .ok weak := by
  obtain ⟨_, h⟩ := exists_of_isOk isOk_issueSample
  simp only [issueSample, bind_eq_ok] at h
  obtain ⟨⟨root, e₁⟩, hroot, ⟨ca, e₂⟩, hca, ⟨leaf, e₃⟩, hleaf, ⟨renewed, e₄⟩, hrenewed, weak, hweak, -⟩ := h
  exact ⟨root, ca, leaf, renewed, weak, e₁, e₂, e₃, e₄, hroot, hca, hleaf, hrenewed, hweak⟩

/-- What is issued for a sample at the start of 1970 is valid a second later. -/
theorem isValidAt_sample {commonName : String} {subject signer : Key} {issuer : Option Bundle} {p : Profile}
    {entropy rest : Entropy} {b : Bundle}
    (h : issue (sampleInfo commonName) subject signer issuer p 0 entropy = .ok (b, rest)) :
    b.certificate.isValidAt 1 = true := by
  have hyears : (sampleInfo commonName).years = 1 := rfl
  rw [isValidAt_iff_of_issue h, hyears]
  decide

theorem exists_sample : ∃ root ca leaf renewed : Bundle,
    Issued (sampleInfo "root") none .root root ∧ Issued (sampleInfo "ca") (some root) .intermediate ca ∧
      Issued (sampleInfo "leaf") (some ca) .leaf leaf ∧ Issued (sampleInfo "ca") (some ca) .intermediate renewed ∧
      SameAuthority ca renewed ∧ ∀ b ∈ [root, ca, leaf, renewed], b.certificate.isValidAt 1 = true := by
  have hmade₁ : (sampleKey 1).Made := made_sampleKey (by decide)
  have hmade₂ : (sampleKey 2).Made := made_sampleKey (by decide)
  obtain ⟨root, ca, leaf, renewed, _, _, _, _, _, hroot, hca, hleaf, hrenewed, -⟩ := exists_issue_sample
  have hsuite : (sampleKey 1).suite = (sampleKey 2).suite := rfl
  have hsame : SameAuthority ca renewed := .of_issue rfl hsuite hca hrenewed
  refine ⟨root, ca, leaf, renewed, ⟨_, _, _, _, _, hmade₁, hroot⟩, ⟨_, _, _, _, _, hmade₁, hca⟩,
    ⟨_, _, _, _, _, hmade₂, hleaf⟩, ⟨_, _, _, _, _, hmade₂, hrenewed⟩, hsame, ?_⟩
  simp [isValidAt_sample hroot, isValidAt_sample hca, isValidAt_sample hleaf, isValidAt_sample hrenewed]

/-! ## Trust -/

/-- What is issued below a line of at most eight intermediate authorities is trusted under their root. -/
theorem Bundle.check_issued {root : Authority} {line : List Authority} (h : Lineage root line)
    (hshort : line.length ≤ 8) {info : SubjectInfo} {p : Profile} {b : Bundle}
    (hb : Issued info (some (newest root line).bundle) p b)
    (hroom : ∀ later a earlier, line ++ [root] = later ++ a :: earlier →
      ∀ m, a.info.maxPathLength = some m → others later ≤ m.toNat)
    {now : Int} (hnow : b.certificate.isValidAt now = true ∧
      ∀ a ∈ line ++ [root], a.bundle.certificate.isValidAt now = true)
    {intermediates : List Bundle} (hperm : intermediates.Perm (line.map Authority.bundle)) :
    b.check [root.bundle] intermediates now = .ok root.info.organization := by
  have hpool : ∀ a ∈ line, a.bundle.certificate ∈ b.chain ++ intermediates.map Bundle.certificate := by
    intro a ha
    have hmem : a.bundle ∈ intermediates := hperm.mem_iff.mpr (List.mem_map_of_mem ha)
    exact List.mem_append_right _ (List.mem_map_of_mem hmem)
  have hwithin : Within 0 (line ++ [root]) := by
    intro later a earlier hline m hm
    rw [Nat.zero_add]
    exact hroom later a earlier hline m hm
  have hleads := h.leads hpool hnow.2 hb hnow.1 hwithin (Nat.lt_succ_of_le hshort)
  obtain ⟨_, -, hroot⟩ := h.rooted.issues
  refine check_root_eq_ok.mpr ⟨hleads, ?_⟩
  rw [organization?, Bundle.subject, hroot.subject, SubjectInfo.organization_of_name]

theorem Bundle.check_issued_sample :
    ∃ root ca leaf : Bundle, Lineage ⟨sampleInfo "root", root⟩ [⟨sampleInfo "ca", ca⟩] ∧
      Issued (sampleInfo "leaf") (some ca) .leaf leaf ∧ leaf.check [root] [ca] 1 = .ok "Org" := by
  obtain ⟨root, ca, leaf, _, hroot, hca, hleaf, -, -, hvalid⟩ := exists_sample
  have hline : Lineage ⟨sampleInfo "root", root⟩ [⟨sampleInfo "ca", ca⟩] := .intermediate (.root hroot) hca
  refine ⟨root, ca, leaf, hline, hleaf, check_issued hline (by simp) hleaf ?_ ⟨hvalid leaf (by simp), ?_⟩ (.refl _)⟩
  · intro later a earlier hsplit m hm
    have hlen := congrArg List.length hsplit
    have hmem : a ∈ [⟨sampleInfo "ca", ca⟩] ++ [(⟨sampleInfo "root", root⟩ : Authority)] := by simp [hsplit]
    have hlimit : a.info.maxPathLength = some 1 := by
      rcases List.mem_pair.mp hmem with rfl | rfl <;> rfl
    obtain rfl : 1 = m := by simpa [hlimit] using hm
    have hcount : others later ≤ later.length := List.countP_le_length
    simp only [List.length_append, List.length_cons, List.length_nil] at hlen
    exact hcount.trans (by simp; omega)
  · simp [hvalid]

end Signet
