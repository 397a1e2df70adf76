import Signet.Proofs.Certificate.Issue
import Signet.Proofs.Key.Encoding
import Mathlib.Data.List.Chain
import Mathlib.Data.List.Range

/-!
# What the extensions of issuers say about a whole path

The search compares a certificate with the next one only, and an extension that is not there, or does not parse, asks
for nothing. So extended usages narrow as long as every certificate in between names some, and an issuer may sign
certificates if it names its usages at all.
-/

namespace Signet

namespace Certificate

/-- A certificate links to the one of its issuer, however many other authorities are below. -/
def Linked (child parent : Certificate) : Prop := ∃ below, Links child parent below

/-- The extended usages of a certificate, if it names any, are among those of one above it. -/
def Narrows (lower upper : Certificate) : Prop :=
  ∀ us allowed, lower.extendedUsages? = some us → upper.extendedUsages? = some allowed →
    .anyUsage ∈ allowed ∨ ∀ o ∈ us, o ∈ allowed

theorem Linked.narrows {child parent : Certificate} (h : Linked child parent) : child.Narrows parent := by
  obtain ⟨_, hlinks⟩ := h
  exact hlinks.extended

/-- Narrowing passes on through a certificate that names its extended usages. Any usage has to be named again. -/
theorem Narrows.trans {lower middle upper : Certificate} (h : lower.Narrows middle)
    (hmiddle : middle.extendedUsages?.isSome = true) (h' : middle.Narrows upper) : lower.Narrows upper := by
  intro us allowed hus hallowed
  obtain ⟨ms, hms⟩ := Option.isSome_iff_exists.mp hmiddle
  rcases h' ms allowed hms hallowed with hany | hwithin
  · exact .inl hany
  · exact (h us ms hus hms).imp (hwithin _) fun husms o ho => hwithin o (husms o ho)

/-- The induction goes up the certificates in between. -/
theorem narrows_of_isChain {lower upper : Certificate} {between : List Certificate}
    (h : (lower :: (between ++ [upper])).IsChain Narrows)
    (hbetween : ∀ m ∈ between, m.extendedUsages?.isSome = true) : lower.Narrows upper := by
  induction between generalizing lower with
  | nil => exact List.isChain_pair.mp h
  | cons m between ih =>
    obtain ⟨hm, hbetween⟩ := List.forall_mem_cons.mp hbetween
    obtain ⟨hlower, hrest⟩ := List.isChain_cons_cons.mp h
    exact hlower.trans hm (ih hrest hbetween)

theorem exists_linked_of_mem_tail {cs : List Certificate} (h : cs.IsChain Linked) {p : Certificate} (hp : p ∈ cs.tail) :
    ∃ child, Linked child p := by
  induction cs with
  | nil => cases hp
  | cons c cs ih =>
    cases cs with
    | nil => cases hp
    | cons d cs =>
      obtain ⟨hcd, hrest⟩ := List.isChain_cons_cons.mp h
      rcases List.mem_cons.mp hp with rfl | hp
      · exact ⟨c, hcd⟩
      · exact ih hrest hp

/-- The certificates of a path, the target first, and that of its root unless this is the last one anyway. -/
def line (c : Nat → Certificate) (k : Nat) (root : Bundle) : List Certificate :=
  (List.range (k + 1)).map c ++ if root.certificate = c k then [] else [root.certificate]

end Certificate

namespace Bundle

open Certificate

variable {b : Bundle} {roots intermediates : List Bundle} {now : Int}

theorem Trusts.isChain_line {c : Nat → Certificate} {k : Nat} {root : Bundle}
    (h : b.Trusts roots intermediates now c k root) : (line c k root).IsChain Linked := by
  have hpath : ((List.range (k + 1)).map c).IsChain Linked :=
    (List.isChain_map c).mpr ((List.isChain_range_succ _ k).mpr fun i hi => ⟨_, h.path.links i hi⟩)
  rw [line]
  split
  · rwa [List.append_nil]
  · next hne =>
    rcases h.ends with heq | ⟨-, hlinks⟩
    · exact absurd heq hne
    · refine hpath.append (.singleton _) fun x hx y hy => ?_
      rw [List.range_succ, List.map_append, List.map_singleton, List.getLast?_concat] at hx
      cases hx
      cases hy
      exact ⟨_, hlinks⟩

theorem exists_trusts_of_check {organization : String} (h : b.check roots intermediates now = .ok organization) :
    ∃ c k root, b.Trusts roots intermediates now c k root ∧ organization = root.organization?.getD "" := by
  obtain ⟨-, root, hfind, ho⟩ := check_eq_ok.mp h
  obtain ⟨c, k, ht⟩ := (b.leads_iff roots intermediates now root).mp (leads_of_findRoot? hfind)
  exact ⟨c, k, root, ht, ho⟩

end Bundle

/-! ## A path with a gap -/

def gapKey : Key := .ofScalar .ecdsaP256 1

def gapValidity : Validity := ⟨.general ⟨1970, 1, 1, 0, 0, 0⟩, .general ⟨2049, 12, 31, 23, 59, 59⟩⟩

/-- A body that certifies the public half of the key. -/
def gapBody (subject issuer : String) (extensions : List Extension) : CertificateBody where
  version := .v3
  serial := ⟨[1], rfl, by decide⟩
  algorithm := Suite.ecdsaP256.signatureAlgorithm
  issuer := .ofTexts [(.commonName, issuer)]
  validity := gapValidity
  subject := .ofTexts [(.commonName, subject)]
  publicKey := Key.publicInfo .ecdsaP256 gapKey.point
  issuerId := none
  subjectId := none
  extensions := some extensions

/-- The root allows server authentication and may sign. -/
def gapRoot : CertificateBody := gapBody "root" "root"
  [.ofContent .keyUsage true (KeyUsage.toElement [.keyCertSign]),
    .ofContent .extendedKeyUsage false (Extension.usages [.serverAuth]),
    .ofContent .basicConstraints true (BasicConstraints.mk true none).toElement]

/-- The intermediate authority names no usages at all. -/
def gapCa : CertificateBody := gapBody "ca" "root"
  [.ofContent .basicConstraints true (BasicConstraints.mk true none).toElement]

/-- The target is for client authentication. -/
def gapTarget : CertificateBody := gapBody "target" "ca"
  [.ofContent .extendedKeyUsage false (Extension.usages [.clientAuth])]

/-- The certificate of a body, signed by the same key with the nonce 1. -/
def gapBundle (body : CertificateBody) : Except CertificateError Bundle := do
  let (signature, _) ← CertificateError.ofCrypto (gapKey.signForBatch body.encode (Bytes.ofNat 32 1))
  Bundle.ofCertificate ⟨body, body.algorithm, .ofBytes signature⟩ []

/-- A target, an authority and a root with these bodies. -/
structure Gap (target ca root : Bundle) : Prop where
  target : gapBundle gapTarget = .ok target
  ca : gapBundle gapCa = .ok ca
  root : gapBundle gapRoot = .ok root

theorem isOk_gapTarget : (gapBundle gapTarget).isOk = true := by decide +kernel

theorem isOk_gapCa : (gapBundle gapCa).isOk = true := by decide +kernel

theorem isOk_gapRoot : (gapBundle gapRoot).isOk = true := by decide +kernel

theorem exists_gap : ∃ target ca root, Gap target ca root := by
  obtain ⟨target, htarget⟩ := exists_of_isOk isOk_gapTarget
  obtain ⟨ca, hca⟩ := exists_of_isOk isOk_gapCa
  obtain ⟨root, hroot⟩ := exists_of_isOk isOk_gapRoot
  exact ⟨target, ca, root, htarget, hca, hroot⟩

theorem made_gapKey : gapKey.Made := Key.made_ofScalar .ecdsaP256 (by decide) (by decide)

theorem of_gapBundle_eq_ok {body : CertificateBody} {b : Bundle} (h : gapBundle body = .ok b) :
    b.chain = [] ∧ b.certificate.body = body ∧ b.certificate.algorithm = body.algorithm ∧
      gapKey.verify body.encode b.certificate.signature.bytes = .ok () := by
  obtain ⟨⟨signature, rest⟩, hsign, hb⟩ := bind_eq_ok.mp h
  obtain ⟨hcertificate, hchain⟩ := Bundle.ofCertificate_eq_ok.mp hb
  obtain ⟨g, rfl, hg⟩ := made_gapKey.valid.confirms_of_signForBatch (ofCrypto_eq_ok.mp hsign)
  rw [hcertificate]
  exact ⟨hchain, rfl, rfl, hg.verify_toDer⟩

section Gap

variable {target ca root : Bundle}

/-- What the root says about usages. -/
theorem usages_of_gapRoot {c : Certificate} (h : c.body = gapRoot) :
    c.keyUsage? = some [.keyCertSign] ∧ c.extendedUsages? = some [.serverAuth] ∧
      c.basicConstraints? = some ⟨true, none⟩ := by
  have hextensions : c.extensions = [.ofContent .keyUsage true (KeyUsage.toElement [.keyCertSign]),
      .ofContent .extendedKeyUsage false (Extension.usages [.serverAuth]),
      .ofContent .basicConstraints true (BasicConstraints.mk true none).toElement] := by
    rw [Certificate.extensions, h]
    rfl
  have hfits : (KeyUsage.toElement [.keyCertSign]).Fits := ⟨rfl, by decide⟩
  have hread : KeyUsage.ofElement? (KeyUsage.toElement [.keyCertSign]) = some [.keyCertSign] := by decide
  refine ⟨?_, ?_, ?_⟩
  · rw [Certificate.keyUsage?, hextensions, Extension.find?_ofContent hfits, hread]
  · rw [Certificate.extendedUsages?, hextensions, Extension.find?_ofContent_of_ne (by decide),
      Extension.find?_ofContent (Extension.fits_usages (by decide)), Extension.usages?_usages]
  · rw [Certificate.basicConstraints?, hextensions, Extension.find?_ofContent_of_ne (by decide),
      Extension.find?_ofContent_of_ne (by decide), Extension.find?_ofContent (BasicConstraints.fits_toElement _),
      BasicConstraints.ofElement?_toElement]

/-- The authority says nothing about usages. -/
theorem usages_of_gapCa {c : Certificate} (h : c.body = gapCa) :
    c.keyUsage? = none ∧ c.extendedUsages? = none ∧ c.basicConstraints? = some ⟨true, none⟩ := by
  have hextensions : c.extensions
      = [.ofContent .basicConstraints true (BasicConstraints.mk true none).toElement] := by
    rw [Certificate.extensions, h]
    rfl
  refine ⟨?_, ?_, ?_⟩
  · rw [Certificate.keyUsage?, hextensions, Extension.find?_ofContent_of_ne (by decide)]
    rfl
  · rw [Certificate.extendedUsages?, hextensions, Extension.find?_ofContent_of_ne (by decide)]
    rfl
  · rw [Certificate.basicConstraints?, hextensions, Extension.find?_ofContent (BasicConstraints.fits_toElement _),
      BasicConstraints.ofElement?_toElement]

theorem usages_of_gapTarget {c : Certificate} (h : c.body = gapTarget) : c.extendedUsages? = some [.clientAuth] := by
  have hextensions : c.extensions = [.ofContent .extendedKeyUsage false (Extension.usages [.clientAuth])] := by
    rw [Certificate.extensions, h]
    rfl
  rw [Certificate.extendedUsages?, hextensions, Extension.find?_ofContent (Extension.fits_usages (by decide)),
    Extension.usages?_usages]

theorem usable_of_gapBody {c : Certificate} {subject issuer : String} {xs : List Extension}
    (h : c.body = gapBody subject issuer xs) (hxs : ∀ x ∈ xs, x.critical = true → x.id ∈ Certificate.knownExtensions) :
    c.Usable 0 := by
  have hvalidity : c.body.validity = gapValidity := by rw [h, gapBody]
  have hextensions : c.extensions = xs := by rw [Certificate.extensions, h, gapBody, Option.getD_some]
  refine ⟨?_, ?_, hextensions ▸ hxs⟩
  · rw [hvalidity]
    decide
  · rw [hvalidity]
    decide

/-- All bodies certify the same key, so each certificate is signed by the key of any other one. -/
theorem signed_of_gapBundle {child parent : Bundle} {body : CertificateBody} {subject issuer : String}
    {xs : List Extension} (hchild : gapBundle body = .ok child)
    (halgorithm : body.algorithm = Suite.ecdsaP256.signatureAlgorithm)
    (hparent : parent.certificate.body = gapBody subject issuer xs) :
    ∃ k, Key.ofPublicInfo parent.certificate.body.publicKey = .ok k ∧
      child.certificate.algorithm.algorithm = k.suite.signatureOid ∧
      k.verify child.certificate.body.encode child.certificate.signature.bytes = .ok () := by
  obtain ⟨-, hbody, halg, hverify⟩ := of_gapBundle_eq_ok hchild
  refine ⟨_, by rw [hparent]; exact made_gapKey.valid.ofPublicInfo_publicInfo, by rw [halg, halgorithm]; rfl, ?_⟩
  rw [hbody, ← hverify]
  exact Key.verify_congr rfl rfl

/-- The certificates of a target, an authority and a root with these bodies. -/
theorem Gap.bodies (h : Gap target ca root) :
    target.certificate.body = gapTarget ∧ ca.certificate.body = gapCa ∧ root.certificate.body = gapRoot :=
  ⟨(of_gapBundle_eq_ok h.target).2.1, (of_gapBundle_eq_ok h.ca).2.1, (of_gapBundle_eq_ok h.root).2.1⟩

theorem Gap.links_ca (h : Gap target ca root) (below : Nat) :
    Certificate.Links target.certificate ca.certificate below := by
  obtain ⟨htarget, hca, -⟩ := h.bodies
  obtain ⟨hkey, hextended, hconstraints⟩ := usages_of_gapCa hca
  constructor
  case named => rw [htarget, hca]; rfl
  case authority => exact ⟨_, hconstraints, rfl, nofun⟩
  case usage => rw [hkey]; nofun
  case extended => rw [hextended]; nofun
  case signed => exact signed_of_gapBundle h.target rfl hca

theorem Gap.links_root (h : Gap target ca root) (below : Nat) :
    Certificate.Links ca.certificate root.certificate below := by
  obtain ⟨-, hca, hroot⟩ := h.bodies
  obtain ⟨hkey, -, hconstraints⟩ := usages_of_gapRoot hroot
  obtain ⟨-, hextended, -⟩ := usages_of_gapCa hca
  constructor
  case named => rw [hca, hroot]; rfl
  case authority => exact ⟨_, hconstraints, rfl, nofun⟩
  case usage => rw [hkey]; rintro u ⟨⟩; exact List.mem_singleton_self _
  case extended => rw [hextended]; nofun
  case signed => exact signed_of_gapBundle h.ca rfl hroot

theorem Gap.different (h : Gap target ca root) :
    ca.certificate ≠ target.certificate ∧ root.certificate ≠ target.certificate ∧
      root.certificate ≠ ca.certificate := by
  obtain ⟨htarget, hca, hroot⟩ := h.bodies
  have hbody {c d : Certificate} (hne : c.body.subject ≠ d.body.subject) : c ≠ d := fun heq => hne (by rw [heq])
  refine ⟨hbody ?_, hbody ?_, hbody ?_⟩
  · rw [hca, htarget]
    decide +kernel
  · rw [hroot, htarget]
    decide +kernel
  · rw [hroot, hca]
    decide +kernel

theorem Gap.check (h : Gap target ca root) : target.check [root] [ca] 0 = .ok "" := by
  obtain ⟨htarget, hca, hroot⟩ := h.bodies
  have hlast : Certificate.Leads (target.chain ++ [ca].map Bundle.certificate) [root] 0 Certificate.maxDepth
      ca.certificate (Certificate.above 0 ca.certificate) root :=
    ⟨fun _ => ca.certificate, 0, rfl, by decide, .single (usable_of_gapBody hca (by decide)), List.mem_singleton_self _,
      .inr ⟨usable_of_gapBody hroot (by decide), h.links_root _⟩⟩
  have hleads := hlast.prepend (usable_of_gapBody htarget (by decide)) (by simp) h.different.1 (h.links_ca 0)
  refine Bundle.check_root_eq_ok.mpr ⟨hleads, ?_⟩
  have hname : root.organization? = none := by
    rw [Bundle.organization?, Bundle.subject, hroot]
    decide +kernel
  rw [hname]
  rfl

/-- There is only one path. -/
theorem Gap.line_eq (h : Gap target ca root) {c : Nat → Certificate} {k : Nat} {found : Bundle}
    (ht : target.Trusts [root] [ca] 0 c k found) :
    Certificate.line c k found = [target.certificate, ca.certificate, root.certificate] := by
  obtain ⟨htarget, hca, hroot⟩ := h.bodies
  obtain ⟨-, hrootTarget, hrootCa⟩ := h.different
  obtain rfl := List.mem_singleton.mp ht.mem_roots
  have hchain : target.chain = [] := (of_gapBundle_eq_ok h.target).1
  have hmember : ∀ i < k, c (i + 1) = ca.certificate := fun i hi => by simpa [hchain] using ht.path.member i hi
  have hpositive : k ≠ 0 := by
    rintro rfl
    rcases ht.ends with heq | ⟨-, hlinks⟩
    · exact hrootTarget (heq.trans ht.target)
    · have hnamed := hlinks.named
      rw [ht.target, htarget, hroot] at hnamed
      exact absurd hnamed (by decide +kernel)
  have hle : k ≤ 1 := by
    by_contra hlt
    exact ht.path.different 1 (by omega) ((hmember 1 (by omega)).trans (hmember 0 (by omega)).symm)
  obtain rfl : k = 1 := by omega
  have hlast : c 1 = ca.certificate := hmember 0 (by decide)
  rw [Certificate.line, hlast, if_neg hrootCa, ← ht.target, ← hlast]
  rfl

end Gap

/-! ## Trust -/

namespace Bundle

open Certificate

variable {b : Bundle} {roots intermediates : List Bundle} {now : Int}

/-- Extended usages narrow from any certificate to any one above it, if all in between name some. -/
theorem check_narrows {organization : String} (h : b.check roots intermediates now = .ok organization) :
    ∃ c k root, b.Trusts roots intermediates now c k root ∧ organization = root.organization?.getD "" ∧
      ∀ before lower between upper after, line c k root = before ++ lower :: (between ++ upper :: after) →
        (∀ m ∈ between, m.extendedUsages?.isSome = true) → lower.Narrows upper := by
  obtain ⟨c, k, root, ht, ho⟩ := exists_trusts_of_check h
  refine ⟨c, k, root, ht, ho, fun before lower between upper after hline hbetween => ?_⟩
  have hchain : (line c k root).IsChain Narrows := ht.isChain_line.imp fun _ _ hlinked => hlinked.narrows
  have hpart : lower :: (between ++ [upper]) <:+: line c k root := ⟨before, after, by rw [hline]; simp⟩
  have hstretch : (lower :: (between ++ [upper])).IsChain Narrows := List.IsChain.infix hchain hpart
  exact narrows_of_isChain hstretch hbetween

theorem check_narrows_gap : ∃ target ca root : Bundle, Gap target ca root ∧ target.check [root] [ca] 0 = .ok "" ∧
    ∃ c k found, target.Trusts [root] [ca] 0 c k found ∧ "" = found.organization?.getD "" ∧
      ∀ before lower between upper after, line c k found = before ++ lower :: (between ++ upper :: after) →
        (∀ m ∈ between, m.extendedUsages?.isSome = true) → lower.Narrows upper := by
  obtain ⟨target, ca, root, h⟩ := exists_gap
  exact ⟨target, ca, root, h, h.check, check_narrows h.check⟩

/-- The usages of the target are not those of the root, as the authority in between names none. -/
theorem check_widened : ∃ target ca root : Bundle, Gap target ca root ∧ target.check [root] [ca] 0 = .ok "" ∧
    ¬∃ c k found, target.Trusts [root] [ca] 0 c k found ∧ (line c k found).Pairwise Narrows := by
  obtain ⟨target, ca, root, h⟩ := exists_gap
  obtain ⟨htarget, -, hroot⟩ := h.bodies
  refine ⟨target, ca, root, h, h.check, ?_⟩
  rintro ⟨c, k, found, ht, hpairs⟩
  rw [h.line_eq ht] at hpairs
  have hnarrows : target.certificate.Narrows root.certificate := List.rel_of_pairwise_cons hpairs (by simp)
  have hwithin := hnarrows _ _ (usages_of_gapTarget htarget) (usages_of_gapRoot hroot).2.1
  exact absurd hwithin (by decide)

/-- Every issuer on a path that names its usages names the signing of certificates. -/
theorem check_signs {organization : String} (h : b.check roots intermediates now = .ok organization) :
    ∃ c k root, b.Trusts roots intermediates now c k root ∧ organization = root.organization?.getD "" ∧
      ∀ p ∈ (line c k root).tail, ∀ u, p.keyUsage? = some u → .keyCertSign ∈ u := by
  obtain ⟨c, k, root, ht, ho⟩ := exists_trusts_of_check h
  refine ⟨c, k, root, ht, ho, fun p hp => ?_⟩
  obtain ⟨child, _, hlinks⟩ := exists_linked_of_mem_tail ht.isChain_line hp
  exact hlinks.usage

theorem check_signs_gap : ∃ target ca root : Bundle, Gap target ca root ∧ target.check [root] [ca] 0 = .ok "" ∧
    ∃ c k found, target.Trusts [root] [ca] 0 c k found ∧ "" = found.organization?.getD "" ∧
      ∀ p ∈ (line c k found).tail, ∀ u, p.keyUsage? = some u → .keyCertSign ∈ u := by
  obtain ⟨target, ca, root, h⟩ := exists_gap
  exact ⟨target, ca, root, h, h.check, check_signs h.check⟩

/-- An authority that says nothing about the usage of its key is an issuer too. -/
theorem check_usage_unsaid : ∃ target ca root : Bundle, Gap target ca root ∧ target.check [root] [ca] 0 = .ok "" ∧
    ¬∃ c k found, target.Trusts [root] [ca] 0 c k found ∧
      ∀ p ∈ (line c k found).tail, ∃ u, p.keyUsage? = some u ∧ .keyCertSign ∈ u := by
  obtain ⟨target, ca, root, h⟩ := exists_gap
  obtain ⟨-, hca, -⟩ := h.bodies
  refine ⟨target, ca, root, h, h.check, ?_⟩
  rintro ⟨c, k, found, ht, hissuers⟩
  rw [h.line_eq ht] at hissuers
  obtain ⟨u, hu, -⟩ := hissuers ca.certificate (by simp)
  rw [(usages_of_gapCa hca).1] at hu
  cases hu

end Bundle

end Signet
