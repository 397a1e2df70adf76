import Signet.Proofs.Certificate.Draft
import Signet.Proofs.Certificate.Extension
import Signet.Proofs.Certificate.Path
import Signet.Proofs.Key.Signing

/-!
# What issuing writes

A certificate that was issued says about its subject what was asked for, names its issuer, and bears a signature that
the key of the issuer accepts. So it links to the certificate of any authority that issued it.
-/

namespace Signet

/-! ## Names -/

theorem Name.text?_ofTexts (fields : List (Der.Oid × String)) (type : Der.Oid) :
    (ofTexts fields).text? type = (fields.find? fun f => f.2 ≠ "" ∧ f.1 = type).map (·.2) := by
  have hflat : (ofTexts fields).flatMap AttributeSet.attributes
      = (fields.filter fun f => f.2 != "").map fun f => ⟨f.1, ⟨Der.utf8Tag, Bytes.ofString f.2⟩⟩ := by
    rw [ofTexts, List.flatMap_map]
    exact List.map_eq_flatMap.symm
  rw [text?, hflat, List.find?_map, List.find?_filter]
  simp only [Function.comp_def, bne_iff_ne, beq_iff_eq]
  cases fields.find? fun f => decide (f.2 ≠ "" ∧ f.1 = type) with
  | none => rfl
  | some f => exact Bytes.toString?_ofString f.2

/-- The texts of a name with one attribute of each type at most are found, except for the empty ones. -/
theorem Name.text?_ofTexts_of_mem {fields : List (Der.Oid × String)} (hnodup : (fields.map (·.1)).Nodup)
    {type : Der.Oid} {text : String} (h : (type, text) ∈ fields) :
    (ofTexts fields).text? type = if text = "" then none else some text := by
  have honly : ∀ f ∈ fields, f.1 = type → f.2 = text := fun f hf heq =>
    congrArg Prod.snd (List.inj_on_of_nodup_map hnodup hf h heq)
  rw [text?_ofTexts]
  cases hfind : fields.find? fun f => f.2 ≠ "" ∧ f.1 = type with
  | none =>
    have hempty : text = "" := by simpa using List.find?_eq_none.mp hfind _ h
    rw [if_pos hempty]
    rfl
  | some f =>
    have hfound := List.find?_some hfind
    obtain ⟨hne, htype⟩ := of_decide_eq_true hfound
    have htext := honly f (List.mem_of_find?_eq_some hfind) htype
    rw [if_neg (htext ▸ hne), ← htext]
    rfl

/-- A text that is left out of a name counts as the empty one. -/
theorem Name.text?_ofTexts_getD {fields : List (Der.Oid × String)} (hnodup : (fields.map (·.1)).Nodup)
    {type : Der.Oid} {text : String} (h : (type, text) ∈ fields) : ((ofTexts fields).text? type).getD "" = text := by
  rw [text?_ofTexts_of_mem hnodup h]
  split
  · next hempty => exact hempty.symm
  · rfl

namespace SubjectInfo

variable (info : SubjectInfo)

theorem nodup_fields : (info.fields.map (·.1)).Nodup := by
  have h : [Der.Oid.country, .organization, .organizationalUnit, .locality, .province, .commonName].Nodup := by decide
  exact h

theorem organization_of_name : (info.name.text? .organization).getD "" = info.organization :=
  Name.text?_ofTexts_getD info.nodup_fields (by simp [fields])

theorem commonName_of_name : (info.name.text? .commonName).getD "" = info.commonName :=
  Name.text?_ofTexts_getD info.nodup_fields (by simp [fields])

theorem commonName_congr {i j : SubjectInfo} (h : i.name = j.name) : i.commonName = j.commonName := by
  rw [← commonName_of_name, h, commonName_of_name]

end SubjectInfo

/-! ## Extensions -/

namespace Issue

theorem fits_usage (p : Profile) : (usage p).toElement.Fits := by
  cases p <;> exact ⟨rfl, by decide⟩

theorem ofElement?_usage (p : Profile) : KeyUsage.ofElement? (usage p).toElement = some (usage p) := by
  cases p <;> decide

/-- The extended usages of authorities. -/
def authorityUsages : List Der.Oid := [.serverAuth, .clientAuth]

def constraints (info : SubjectInfo) (p : Profile) : BasicConstraints :=
  ⟨p.isCa, if p.isCa then info.maxPathLength else none⟩

/-- The identifiers of the extensions that say nothing about authority. -/
def otherIds : List Der.Oid := [.subjectKeyId, .authorityKeyId, .subjectAltName]

theorem extensionList_eq (suite : Suite) (info : SubjectInfo) (subject : Key) (issuer : Option Bundle) (p : Profile) :
    ∃ others, (∀ x ∈ others, x.id ∈ otherIds) ∧
      extensionList suite info subject issuer p = .ofContent .keyUsage true (usage p).toElement
        :: ((if p.isCa then [.ofContent .extendedKeyUsage false (Extension.usages authorityUsages)] else [])
          ++ .ofContent .basicConstraints true (constraints info p).toElement :: others) := by
  refine ⟨_, ?_, by simp only [extensionList, List.append_assoc, List.singleton_append]; rfl⟩
  intro x hx
  rcases List.mem_append.mp hx with hx | hx
  · cases hca : p.isCa with
    | false => simp [hca] at hx
    | true =>
      obtain rfl := List.mem_singleton.mp (by simpa only [hca, if_true] using hx)
      exact (by decide : Der.Oid.subjectKeyId ∈ otherIds)
  · rcases List.mem_append.mp hx with hx | hx
    · obtain ⟨id, -, rfl⟩ := List.mem_map.mp hx
      exact (by decide : Der.Oid.authorityKeyId ∈ otherIds)
    · obtain rfl := List.mem_singleton.mp hx
      exact (by decide : Der.Oid.subjectAltName ∈ otherIds)

theorem extensions_eq_ok {suite : Suite} {info : SubjectInfo} {subject : Key} {issuer : Option Bundle} {p : Profile}
    {xs : List Extension} (h : extensions suite info subject issuer p = .ok xs) :
    xs = extensionList suite info subject issuer p := by
  simp only [extensions] at h
  split at h
  · cases h
    rfl
  · cases h

end Issue

namespace Certificate

/-- The extensions of a certificate are those of the given subject data and profile. -/
structure Describes (c : Certificate) (info : SubjectInfo) (p : Profile) : Prop where
  usage : c.keyUsage? = some (Issue.usage p)
  extended : c.extendedUsages? = if p.isCa then some Issue.authorityUsages else none
  constraints : c.basicConstraints? = some (Issue.constraints info p)
  known : ∀ x ∈ c.extensions, x.id ∈ knownExtensions

theorem describes_of_extensions {c : Certificate} {suite : Suite} {info : SubjectInfo} {subject : Key}
    {issuer : Option Bundle} {p : Profile} {xs : List Extension} (hc : c.body.extensions = some xs)
    (h : Issue.extensions suite info subject issuer p = .ok xs) : c.Describes info p := by
  obtain ⟨others, hothers, hform⟩ := Issue.extensionList_eq suite info subject issuer p
  have hxs : c.extensions = xs := by rw [extensions, hc, Option.getD_some]
  rw [Issue.extensions_eq_ok h, hform] at hxs
  have hnone : ∀ x ∈ others, x.id ≠ .extendedKeyUsage := by
    intro x hx heq
    have hid := hothers x hx
    rw [heq] at hid
    exact absurd hid (by decide)
  have hku : Der.Oid.keyUsage ≠ .extendedKeyUsage := by decide
  have hbu : Der.Oid.basicConstraints ≠ .extendedKeyUsage := by decide
  have hkb : Der.Oid.keyUsage ≠ .basicConstraints := by decide
  have hub : Der.Oid.extendedKeyUsage ≠ .basicConstraints := by decide
  have hknown : ∀ id ∈ Issue.otherIds, id ∈ knownExtensions := by decide
  constructor
  case usage =>
    rw [keyUsage?, hxs, Extension.find?_ofContent (Issue.fits_usage p), Issue.ofElement?_usage]
  case extended =>
    rw [extendedUsages?, hxs, Extension.find?_ofContent_of_ne hku]
    cases p.isCa with
    | false =>
      simp only [Bool.false_eq_true, if_false, List.nil_append]
      rw [Extension.find?_ofContent_of_ne hbu, Extension.find?_eq_none hnone]
    | true =>
      simp only [if_true, List.singleton_append]
      rw [Extension.find?_ofContent (Extension.fits_usages (by decide)), Extension.usages?_usages]
  case constraints =>
    have hread : ∀ xs, Extension.find? .basicConstraints BasicConstraints.ofElement?
        (.ofContent .basicConstraints true (Issue.constraints info p).toElement :: xs)
          = some (Issue.constraints info p) := by
      intro xs
      rw [Extension.find?_ofContent (BasicConstraints.fits_toElement _), BasicConstraints.ofElement?_toElement]
    rw [basicConstraints?, hxs, Extension.find?_ofContent_of_ne hkb]
    cases p.isCa with
    | false => exact hread others
    | true =>
      simp only [if_true, List.singleton_append]
      rw [Extension.find?_ofContent_of_ne hub, hread]
  case known =>
    intro x hx
    rw [hxs] at hx
    simp only [List.mem_cons, List.mem_append] at hx
    rcases hx with rfl | hx | rfl | hx
    · exact (by decide : Der.Oid.keyUsage ∈ knownExtensions)
    · cases hca : p.isCa with
      | false => simp [hca] at hx
      | true =>
        obtain rfl := List.mem_singleton.mp (by simpa only [hca, if_true] using hx)
        exact (by decide : Der.Oid.extendedKeyUsage ∈ knownExtensions)
    · exact (by decide : Der.Oid.basicConstraints ∈ knownExtensions)
    · exact hknown x.id (hothers x hx)

/-- The key identifier of an authority is the digest of its point. -/
theorem subjectKeyId?_of_extensions {c : Certificate} {suite : Suite} {info : SubjectInfo} {subject : Key}
    {issuer : Option Bundle} {p : Profile} {xs : List Extension} (hp : p.isCa = true) (hc : c.body.extensions = some xs)
    (h : Issue.extensions suite info subject issuer p = .ok xs) :
    c.subjectKeyId? = some (suite.hash subject.pointBytes).bytes := by
  have hxs : c.extensions = xs := by rw [extensions, hc, Option.getD_some]
  have hfits : (Der.Element.ofOctets (suite.hash subject.pointBytes).bytes).Fits :=
    ⟨rfl, (suite.hash subject.pointBytes).size.le.trans (by decide)⟩
  have hku : Der.Oid.keyUsage ≠ .subjectKeyId := by decide
  have heu : Der.Oid.extendedKeyUsage ≠ .subjectKeyId := by decide
  have hbc : Der.Oid.basicConstraints ≠ .subjectKeyId := by decide
  rw [subjectKeyId?, hxs, Issue.extensions_eq_ok h]
  simp only [Issue.extensionList, hp, if_true, List.cons_append, List.nil_append]
  rw [Extension.find?_ofContent_of_ne hku, Extension.find?_ofContent_of_ne heu, Extension.find?_ofContent_of_ne hbc,
    Extension.find?_ofContent hfits, Der.Element.octets?_ofOctets]

/-- Only authorities have a key identifier. -/
theorem subjectKeyId?_eq_none_of_extensions {c : Certificate} {suite : Suite} {info : SubjectInfo} {subject : Key}
    {issuer : Option Bundle} {p : Profile} {xs : List Extension} (hp : p.isCa = false)
    (hc : c.body.extensions = some xs) (h : Issue.extensions suite info subject issuer p = .ok xs) :
    c.subjectKeyId? = none := by
  have hxs : c.extensions = xs := by rw [extensions, hc, Option.getD_some]
  have hku : Der.Oid.keyUsage ≠ .subjectKeyId := by decide
  have hbc : Der.Oid.basicConstraints ≠ .subjectKeyId := by decide
  have hak : Der.Oid.authorityKeyId ≠ .subjectKeyId := by decide
  have hsa : Der.Oid.subjectAltName ≠ .subjectKeyId := by decide
  rw [subjectKeyId?, hxs, Issue.extensions_eq_ok h]
  simp only [Issue.extensionList, hp, Bool.false_eq_true, if_false, List.append_nil, List.cons_append, List.nil_append]
  rw [Extension.find?_ofContent_of_ne hku, Extension.find?_ofContent_of_ne hbc, Extension.find?_append_of_forall_ne,
    Extension.find?_ofContent_of_ne hsa]
  · rfl
  · intro x hx
    obtain ⟨_, -, rfl⟩ := List.mem_map.mp hx
    exact hak

end Certificate

/-! ## Issued certificates -/

/-- An authority and a key that may sign for it. -/
structure Empowers (ca : Bundle) (signer : Key) : Prop where
  suite : signer.suite = ca.suite
  authority : ca.certificate.isCa = true
  key : ca.key.samePublic signer = true

/-- What a certificate that was issued says, and who signed it. -/
structure Issues (info : SubjectInfo) (signer : Key) (issuer : Option Bundle) (p : Profile) (b : Bundle) : Prop where
  subject : b.certificate.body.subject = info.name
  describes : b.certificate.Describes info p
  algorithm : b.certificate.algorithm.algorithm = signer.suite.signatureOid
  signed : signer.sign b.certificate.body.encode = .ok b.certificate.signature.bytes
  under : ∀ ca, issuer = some ca → b.certificate.body.issuer = ca.certificate.body.subject ∧ Empowers ca signer

/-- Without an authority, only a root is issued, and it names itself. -/
theorem Issue.issuerName_root_eq_ok {info : SubjectInfo} {subject signer : Key} {p : Profile} {name : Name}
    (h : issuerName info subject signer none p = .ok name) : name = info.name := by
  cases p with
  | root =>
    simp only [issuerName] at h
    split at h
    · cases h
      rfl
    · cases h
  | intermediate | leaf => cases h

theorem Issue.issuerName_eq_ok {info : SubjectInfo} {subject signer : Key} {ca : Bundle} {p : Profile} {name : Name}
    (h : issuerName info subject signer (some ca) p = .ok name) :
    name = ca.certificate.body.subject ∧ Empowers ca signer := by
  cases p with
  | root => cases h
  | intermediate | leaf =>
    obtain ⟨_, hsuite, hname⟩ := bind_eq_ok.mp h
    cases hca : ca.certificate.isCa with
    | false =>
      rw [hca] at hname
      cases hname
    | true =>
      rw [hca] at hname
      cases hkey : ca.key.samePublic signer with
      | false =>
        rw [hkey] at hname
        cases hname
      | true =>
        rw [hkey] at hname
        cases hname
        exact ⟨rfl, Suite.expect_eq_ok (ofCrypto_eq_ok.mp hsuite), hca, hkey⟩

theorem issues_of_issue {info : SubjectInfo} {subject signer : Key} {issuer : Option Bundle} {p : Profile} {now : Nat}
    {entropy rest : Entropy} {b : Bundle} (h : issue info subject signer issuer p now entropy = .ok (b, rest)) :
    Issues info signer issuer p b := by
  obtain ⟨hdrafted, halgorithm, ⟨signature, hsign, hsignature⟩, -⟩ := Issue.drafted_of_issue h
  obtain ⟨xs, hxs, hextensions⟩ := hdrafted.extensions
  constructor
  case subject => exact hdrafted.subjectName
  case describes => exact Certificate.describes_of_extensions hextensions hxs
  case algorithm => rw [halgorithm, Suite.signatureAlgorithm]
  case signed => rw [hsign, hsignature, Der.BitString.ofBytes]
  case under =>
    rintro ca rfl
    exact Issue.issuerName_eq_ok hdrafted.issuerName

/-- An authority may be issued anew: what is issued under it depends on its subject data and its key only. -/
theorem SameAuthority.of_issue {info : SubjectInfo} {subject signer signer' : Key} {issuer issuer' : Option Bundle}
    {p : Profile} {now now' : Nat} {entropy entropy' rest rest' : Entropy} {ca ca' : Bundle} (hp : p.isCa = true)
    (hsuite : signer.suite = signer'.suite) (h : issue info subject signer issuer p now entropy = .ok (ca, rest))
    (h' : issue info subject signer' issuer' p now' entropy' = .ok (ca', rest')) : SameAuthority ca ca' := by
  obtain ⟨hdrafted, -⟩ := Issue.drafted_of_issue h
  obtain ⟨hdrafted', -⟩ := Issue.drafted_of_issue h'
  obtain ⟨xs, hxs, hextensions⟩ := hdrafted.extensions
  obtain ⟨xs', hxs', hextensions'⟩ := hdrafted'.extensions
  have hdescribes := Certificate.describes_of_extensions hextensions hxs
  have hdescribes' := Certificate.describes_of_extensions hextensions' hxs'
  exact {
    key := Bundle.key_congr (by rw [hdrafted.publicKey, hdrafted'.publicKey])
    subject := by rw [Bundle.subject, hdrafted.subjectName, Bundle.subject, hdrafted'.subjectName]
    isCa := by rw [Certificate.isCa, hdescribes.constraints, Certificate.isCa, hdescribes'.constraints]
    keyId := by
      rw [Certificate.subjectKeyId?_of_extensions hp hextensions hxs,
        Certificate.subjectKeyId?_of_extensions hp hextensions' hxs', hsuite] }

/-! ## Written forms -/

namespace Issue

theorem isValid_of_issuerName {info : SubjectInfo} {subject signer : Key} {issuer : Option Bundle} {p : Profile}
    {name : Name} (h : issuerName info subject signer issuer p = .ok name)
    (hca : ∀ ca, issuer = some ca → ca.certificate.IsValid) : name.IsValid := by
  cases issuer with
  | none =>
    rw [issuerName_root_eq_ok h]
    exact Name.isValid_ofTexts _
  | some ca =>
    rw [(issuerName_eq_ok h).1]
    exact (hca ca rfl).body.subject

theorem validity_eq_ok {now : Nat} {years : UInt32} {v : Validity} :
    validity now years = .ok v ↔ now + years.toNat * secondsPerYear ≤ DateTime.maxUnix ∧
      v = ⟨.general (.ofUnix now), .general (.ofUnix (now + years.toNat * secondsPerYear))⟩ := by
  constructor
  · intro h
    unfold validity at h
    split at h
    · next a b ha hb =>
      cases h
      obtain ⟨-, rfl⟩ := DateTime.ofUnix?_eq_some.mp ha
      obtain ⟨hlast, rfl⟩ := DateTime.ofUnix?_eq_some.mp hb
      exact ⟨hlast, rfl⟩
    · cases h
  · rintro ⟨hlast, rfl⟩
    have hnow : now ≤ DateTime.maxUnix := (Nat.le_add_right ..).trans hlast
    rw [validity, DateTime.ofUnix?_eq_some.mpr ⟨hnow, rfl⟩, DateTime.ofUnix?_eq_some.mpr ⟨hlast, rfl⟩]

theorem isValid_of_validity {now : Nat} {years : UInt32} {v : Validity} (h : validity now years = .ok v) : v.IsValid := by
  obtain ⟨hlast, rfl⟩ := validity_eq_ok.mp h
  exact ⟨DateTime.isValid_ofUnix ((Nat.le_add_right ..).trans hlast), DateTime.isValid_ofUnix hlast⟩

end Issue

theorem writable_of_issue {info : SubjectInfo} {subject signer : Key} {issuer : Option Bundle} {p : Profile} {now : Nat}
    {entropy rest : Entropy} {b : Bundle} (h : issue info subject signer issuer p now entropy = .ok (b, rest))
    (hca : ∀ ca, issuer = some ca → ca.certificate.IsValid) : b.certificate.Writable := by
  obtain ⟨hdrafted, halgorithm, ⟨signature, -, hsignature⟩, -⟩ := Issue.drafted_of_issue h
  refine ⟨?_, b.short⟩
  exact {
    body := {
      algorithm := hdrafted.algorithm ▸ nofun
      issuer := Issue.isValid_of_issuerName hdrafted.issuerName hca
      validity := Issue.isValid_of_validity hdrafted.validity
      subject := hdrafted.subjectName ▸ Name.isValid_ofTexts _
      publicKey := hdrafted.publicKey ▸ ⟨Der.AlgorithmIdentifier.isValid_ofCurve _, Der.BitString.isValid_ofBytes _⟩
      issuerId := hdrafted.noIds.1 ▸ nofun
      subjectId := hdrafted.noIds.2 ▸ nofun }
    algorithm := halgorithm ▸ nofun
    signature := hsignature ▸ Der.BitString.isValid_ofBytes _ }

/-! ## Links -/

/-- The key of an authority accepts what the key that signs for it signs. -/
theorem Empowers.verify_of_sign {ca : Bundle} {signer : Key} (h : Empowers ca signer) (hs : signer.Made)
    {message b : Bytes} (hsign : signer.sign message = .ok b) : ca.key.verify message b = .ok () := by
  obtain ⟨g, rfl, hg⟩ := hs.valid.confirms_of_sign hsign
  obtain ⟨hsuite, hpoint⟩ := (Key.valid_of_ofPublicInfo ca.certified).eq_of_samePublic hs.valid h.key
  exact (Key.verify_congr hsuite hpoint).trans hg.verify_toDer

theorem Certificate.exists_of_isCa {c : Certificate} (h : c.isCa = true) :
    ∃ b, c.basicConstraints? = some b ∧ b.ca = true := by
  cases hb : c.basicConstraints? with
  | none => simp [isCa, hb] at h
  | some b => exact ⟨b, rfl, by simpa [isCa, hb] using h⟩

/-- The certificate of an authority allows signing certificates and, where the profile is that of another authority, its
extended usages. -/
structure Certificate.Permits (ca : Certificate) (p : Profile) : Prop where
  signs : ∀ u, ca.keyUsage? = some u → .keyCertSign ∈ u
  covers : p.isCa = true → ∀ allowed, ca.extendedUsages? = some allowed →
    .anyUsage ∈ allowed ∨ ∀ o ∈ Issue.authorityUsages, o ∈ allowed

theorem Certificate.Describes.permits {c : Certificate} {info : SubjectInfo} {q : Profile} (h : c.Describes info q)
    (hq : q.isCa = true) (p : Profile) : c.Permits p where
  signs u hu := by
    rw [h.usage, Option.some.injEq] at hu
    subst hu
    cases q with
    | root | intermediate => decide
    | leaf => cases hq
  covers _ allowed hallowed := by
    rw [h.extended, if_pos hq, Option.some.injEq] at hallowed
    exact .inr fun o ho => hallowed ▸ ho

/-- A certificate links to the one of the authority that issued it if this one permits it and its limit allows it. -/
theorem Issues.links_of_permits {info : SubjectInfo} {signer : Key} {p : Profile} {b ca : Bundle}
    (h : Issues info signer (some ca) p b) (hs : signer.Made) (hpermits : ca.certificate.Permits p) {below : Nat}
    (hroom : ∀ c, ca.certificate.basicConstraints? = some c → ∀ n, c.pathLength = some n → below ≤ n.toNat) :
    Certificate.Links b.certificate ca.certificate below := by
  obtain ⟨hissuer, hempowers⟩ := h.under ca rfl
  obtain ⟨c, hc, hca⟩ := Certificate.exists_of_isCa hempowers.authority
  constructor
  case named => exact hissuer
  case authority => exact ⟨c, hc, hca, hroom c hc⟩
  case usage => exact hpermits.signs
  case extended =>
    intro us allowed hus hallowed
    rw [h.describes.extended, Option.ite_none_right_eq_some, Option.some.injEq] at hus
    obtain ⟨hp, rfl⟩ := hus
    exact hpermits.covers hp allowed hallowed
  case signed =>
    refine ⟨ca.key, ca.certified, ?_, hempowers.verify_of_sign hs h.signed⟩
    rw [h.algorithm, hempowers.suite]
    rfl

/-- A certificate links to the one of an issued authority that issued it if the limit of this one allows it. -/
theorem Issues.links {info caInfo : SubjectInfo} {signer caSigner : Key} {issuer : Option Bundle} {p q : Profile}
    {b ca : Bundle} (h : Issues info signer (some ca) p b) (hs : signer.Made) (hca : Issues caInfo caSigner issuer q ca)
    {below : Nat} (hroom : ∀ m, caInfo.maxPathLength = some m → below ≤ m.toNat) :
    Certificate.Links b.certificate ca.certificate below := by
  obtain ⟨-, hempowers⟩ := h.under ca rfl
  have hq : q.isCa = true := by
    simpa [Certificate.isCa, hca.describes.constraints, Issue.constraints] using hempowers.authority
  refine h.links_of_permits hs (hca.describes.permits hq p) fun c hc n hn => hroom n ?_
  rw [hca.describes.constraints, Option.some.injEq] at hc
  simpa only [← hc, Issue.constraints, hq, if_true] using hn

/-- A link of a certificate to that of the authority that issued it needs all that the authority has to permit. -/
theorem Issues.permits_of_links {info : SubjectInfo} {signer : Key} {issuer : Option Bundle} {p : Profile} {b : Bundle}
    {ca : Certificate} (h : Issues info signer issuer p b) {below : Nat} (hl : Certificate.Links b.certificate ca below) :
    ca.Permits p where
  signs := hl.usage
  covers hp allowed := hl.extended _ allowed (by rw [h.describes.extended, if_pos hp])

/-- The moments of a validity are the first and the last one that it contains. -/
theorem Issue.contains_of_validity {now : Nat} {years : UInt32} {v : Validity} (h : validity now years = .ok v)
    (t : Int) : v.contains t = true ↔ now ≤ t ∧ t ≤ ↑(now + years.toNat * secondsPerYear) := by
  obtain ⟨-, rfl⟩ := validity_eq_ok.mp h
  simp only [Validity.contains, Der.Time.dateTime, DateTime.toUnix_ofUnix, Bool.and_eq_true, decide_eq_true_eq]

theorem isValidAt_iff_of_issue {info : SubjectInfo} {subject signer : Key} {issuer : Option Bundle} {p : Profile}
    {now : Nat} {entropy rest : Entropy} {b : Bundle}
    (h : issue info subject signer issuer p now entropy = .ok (b, rest)) {t : Int} :
    b.certificate.isValidAt t = true ↔ now ≤ t ∧ t ≤ ↑(now + info.years.toNat * Issue.secondsPerYear) :=
  Issue.contains_of_validity (Issue.drafted_of_issue h).1.validity t

/-- A certificate is valid at the time at which it was issued. -/
theorem isValidAt_of_issue {info : SubjectInfo} {subject signer : Key} {issuer : Option Bundle} {p : Profile} {now : Nat}
    {entropy rest : Entropy} {b : Bundle} (h : issue info subject signer issuer p now entropy = .ok (b, rest)) :
    b.certificate.isValidAt now = true :=
  (isValidAt_iff_of_issue h).mpr ⟨le_rfl, Int.ofNat_le.mpr (Nat.le_add_right ..)⟩

theorem Issues.usable {info : SubjectInfo} {signer : Key} {issuer : Option Bundle} {p : Profile} {b : Bundle}
    (h : Issues info signer issuer p b) {now : Int} (hnow : b.certificate.isValidAt now = true) :
    b.certificate.Usable now := by
  simp only [Certificate.isValidAt, Validity.contains, Bool.and_eq_true, decide_eq_true_eq] at hnow
  exact ⟨hnow.1, hnow.2, fun x hx _ => h.describes.known x hx⟩

end Signet
