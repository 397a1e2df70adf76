import Signet.Certificate.Trust
import Mathlib.Data.Nat.Count

/-!
# Paths of issuers

The search for a root is told what a path is: certificates that are usable and different from the ones before them,
each of which may have issued the one before. The search finds a root exactly when there is a path that is not too long.
-/

namespace Signet.Certificate

/-- A certificate is usable at the time `now` if this lies in its validity and every critical extension is known. -/
structure Usable (c : Certificate) (now : Int) : Prop where
  started : c.body.validity.notBefore.dateTime.toUnix ≤ now
  not_ended : now ≤ c.body.validity.notAfter.dateTime.toUnix
  known : ∀ x ∈ c.extensions, x.critical = true → x.id ∈ knownExtensions

/-- A certificate links to the one of its issuer, with `below` other authorities between the target and the issuer. -/
structure Links (child parent : Certificate) (below : Nat) : Prop where
  named : child.body.issuer = parent.body.subject
  authority : ∃ b, parent.basicConstraints? = some b ∧ b.ca = true ∧ ∀ n, b.pathLength = some n → below ≤ n.toNat
  usage : ∀ u, parent.keyUsage? = some u → .keyCertSign ∈ u
  extended : ∀ us allowed, child.extendedUsages? = some us → parent.extendedUsages? = some allowed →
    .anyUsage ∈ allowed ∨ ∀ o ∈ us, o ∈ allowed
  signed : ∃ k, Key.ofPublicInfo parent.body.publicKey = .ok k ∧
    child.algorithm.algorithm = k.suite.signatureOid ∧ k.verify child.body.encode child.signature.bytes = .ok ()

theorem isUsable_iff {c : Certificate} {now : Int} : c.isUsable now = true ↔ c.Usable now := by
  have h : c.isUsable now = true ↔ (c.body.validity.notBefore.dateTime.toUnix ≤ now
      ∧ now ≤ c.body.validity.notAfter.dateTime.toUnix)
      ∧ ∀ x ∈ c.extensions, x.critical = true → x.id ∈ knownExtensions := by
    simp [isUsable, isValidAt, Validity.contains, hasUnknownCritical]
  rw [h]
  exact ⟨fun ⟨⟨h1, h2⟩, h3⟩ => ⟨h1, h2, h3⟩, fun ⟨h1, h2, h3⟩ => ⟨⟨h1, h2⟩, h3⟩⟩

theorem allowsBelow_iff {c : Certificate} {below : Nat} :
    c.allowsBelow below = true ↔
      ∃ b, c.basicConstraints? = some b ∧ b.ca = true ∧ ∀ n, b.pathLength = some n → below ≤ n.toNat := by
  cases h : c.basicConstraints? with
  | none => simp [allowsBelow, h]
  | some b => cases hp : b.pathLength <;> simp [allowsBelow, h, hp]

theorem maySign_iff {c : Certificate} : c.maySign = true ↔ ∀ u, c.keyUsage? = some u → .keyCertSign ∈ u := by
  cases h : c.keyUsage? with
  | none => simp [maySign, h]
  | some u => simp [maySign, h]

theorem usagesWithin_iff {c p : Certificate} :
    c.usagesWithin p = true ↔ ∀ us allowed, c.extendedUsages? = some us → p.extendedUsages? = some allowed →
      .anyUsage ∈ allowed ∨ ∀ o ∈ us, o ∈ allowed := by
  cases h : c.extendedUsages? with
  | none => simp [usagesWithin, h]
  | some us =>
    cases h' : p.extendedUsages? with
    | none => simp [usagesWithin, h, h']
    | some allowed => simp [usagesWithin, h, h']

theorem isSignedBy_iff {c p : Certificate} :
    c.isSignedBy p = true ↔ ∃ k, Key.ofPublicInfo p.body.publicKey = .ok k ∧
      c.algorithm.algorithm = k.suite.signatureOid ∧ k.verify c.body.encode c.signature.bytes = .ok () := by
  cases h : Key.ofPublicInfo p.body.publicKey with
  | error e => simp [isSignedBy, h]
  | ok k =>
    have hok : ∀ x : Except CryptoError Unit, x.isOk = true ↔ x = .ok () := by
      intro x
      cases x <;> simp [Except.isOk, Except.toBool]
    simp [isSignedBy, h, hok]

theorem issuedBy_iff {child parent : Certificate} {below : Nat} :
    child.issuedBy parent below = true ↔ Links child parent below := by
  simp only [issuedBy, Bool.and_eq_true, beq_iff_eq, allowsBelow_iff, maySign_iff, usagesWithin_iff, isSignedBy_iff]
  constructor
  · rintro ⟨⟨⟨⟨h1, h2⟩, h3⟩, h4⟩, h5⟩
    exact ⟨h1, h2, h3, h4, h5⟩
  · rintro ⟨h1, h2, h3, h4, h5⟩
    exact ⟨⟨⟨⟨h1, h2⟩, h3⟩, h4⟩, h5⟩

/-! ## Paths -/

/-- How many of the certificates `c 1` to `c i` are not their own issuers. -/
def between (c : Nat → Certificate) (i : Nat) : Nat := Nat.count (fun j => (c (j + 1)).isSelfIssued = false) i

/-- The certificates `c 0` to `c k` lead from one to the next through the pool. Between the target and `c 1` there are
`below` other authorities. -/
structure Path (pool : List Certificate) (now : Int) (below : Nat) (c : Nat → Certificate) (k : Nat) : Prop where
  member : ∀ i < k, c (i + 1) ∈ pool
  usable : ∀ i ≤ k, (c i).Usable now
  different : ∀ i < k, c (i + 1) ≠ c i
  links : ∀ i < k, Links (c i) (c (i + 1)) (below + between c i)

/-- A root ends a path at its last certificate: it is this certificate, or it is usable and may have issued it. -/
def Ends (now : Int) (below : Nat) (last : Certificate) (root : Bundle) : Prop :=
  root.certificate = last ∨ root.certificate.Usable now ∧ Links last root.certificate below

theorem endsAt_iff {now : Int} {below : Nat} {c : Certificate} {root : Bundle} :
    c.endsAt now below root = true ↔ Ends now below c root := by
  simp only [endsAt, Ends, Bool.or_eq_true, beq_iff_eq, Bool.and_eq_true, isUsable_iff, issuedBy_iff]

/-- The number of other authorities above a certificate: it counts unless it is its own issuer. -/
def above (below : Nat) (parent : Certificate) : Nat := if parent.isSelfIssued then below else below + 1

theorem le_above (below : Nat) (c : Certificate) : below ≤ above below c := by
  rw [above]
  split <;> omega

theorem between_succ (below : Nat) (c : Nat → Certificate) (i : Nat) :
    below + between c (i + 1) = above below (c 1) + between (fun j => c (j + 1)) i := by
  rw [between, Nat.count_succ', between, above]
  cases (c 1).isSelfIssued with
  | false =>
    simp only [if_true, Bool.false_eq_true, if_false]
    omega
  | true => simp

theorem Path.single {pool : List Certificate} {now : Int} {below : Nat} {c₀ : Certificate} (hu : c₀.Usable now) :
    Path pool now below (fun _ => c₀) 0 where
  member i hi := absurd hi (Nat.not_lt_zero i)
  usable _ _ := hu
  different i hi := absurd hi (Nat.not_lt_zero i)
  links i hi := absurd hi (Nat.not_lt_zero i)

theorem Path.tail {pool : List Certificate} {now : Int} {below k : Nat} {c : Nat → Certificate}
    (h : Path pool now below c (k + 1)) : Path pool now (above below (c 1)) (fun i => c (i + 1)) k where
  member i hi := h.member (i + 1) (by omega)
  usable i hi := h.usable (i + 1) (by omega)
  different i hi := h.different (i + 1) (by omega)
  links i hi := by
    rw [← between_succ]
    exact h.links (i + 1) (by omega)

def prepend (c₀ : Certificate) (c : Nat → Certificate) : Nat → Certificate
  | 0 => c₀
  | i + 1 => c i

theorem Path.prepend {pool : List Certificate} {now : Int} {below k : Nat} {c₀ : Certificate} {c : Nat → Certificate}
    (hu : c₀.Usable now) (hm : c 0 ∈ pool) (hd : c 0 ≠ c₀) (hl : Links c₀ (c 0) below)
    (h : Path pool now (above below (c 0)) c k) : Path pool now below (prepend c₀ c) (k + 1) where
  member i hi := by
    cases i with
    | zero => exact hm
    | succ i => exact h.member i (by omega)
  usable i hi := by
    cases i with
    | zero => exact hu
    | succ i => exact h.usable i (by omega)
  different i hi := by
    cases i with
    | zero => exact hd
    | succ i => exact h.different i (by omega)
  links i hi := by
    cases i with
    | zero => exact hl
    | succ i =>
      rw [between_succ]
      exact h.links i (by omega)

/-! ## The search -/

section Search

variable {pool : List Certificate} {roots : List Bundle} {now : Int}

/-- A path that starts at `c₀`, has fewer than `steps` certificates after it, and ends at a root. -/
def Leads (pool : List Certificate) (roots : List Bundle) (now : Int) (steps : Nat) (c₀ : Certificate) (below : Nat)
    (root : Bundle) : Prop :=
  ∃ (c : Nat → Certificate) (k : Nat), c 0 = c₀ ∧ k < steps ∧ Path pool now below c k ∧ root ∈ roots ∧
    Ends now (below + between c k) (c k) root

theorem Leads.mono {pool' : List Certificate} (hpool : ∀ c ∈ pool, c ∈ pool') {steps : Nat} {c₀ : Certificate}
    {below : Nat} {root : Bundle} (h : Leads pool roots now steps c₀ below root) :
    Leads pool' roots now steps c₀ below root := by
  obtain ⟨c, k, h0, hk, hpath, hroot, hends⟩ := h
  have hpath' : Path pool' now below c k := { hpath with member := fun i hi => hpool _ (hpath.member i hi) }
  exact ⟨c, k, h0, hk, hpath', hroot, hends⟩

/-- A path that does not start at a root comes to it from another certificate that links to it. -/
theorem Leads.eq_or_exists_child {steps : Nat} {c₀ : Certificate} {below : Nat} {root : Bundle}
    (h : Leads pool roots now steps c₀ below root) :
    root.certificate = c₀ ∨ ∃ child below', (child = c₀ ∨ child ∈ pool) ∧ child ≠ root.certificate ∧
      Links child root.certificate below' := by
  obtain ⟨c, k, rfl, -, hpath, -, hends⟩ := h
  have hmem : ∀ i ≤ k, c i = c 0 ∨ c i ∈ pool := fun i hi => by
    cases i with
    | zero => exact .inl rfl
    | succ i => exact .inr (hpath.member i hi)
  by_cases heq : root.certificate = c k
  · cases k with
    | zero => exact .inl heq
    | succ k =>
      rw [heq]
      exact .inr ⟨c k, _, hmem k (Nat.le_succ k), (hpath.different k (Nat.lt_succ_self k)).symm,
        hpath.links k (Nat.lt_succ_self k)⟩
  · obtain ⟨-, hlinks⟩ := hends.resolve_left heq
    exact .inr ⟨c k, _, hmem k le_rfl, Ne.symm heq, hlinks⟩

/-- Without further certificates, a path has no more than its first one. -/
theorem Leads.ends_of_nil {steps : Nat} {c₀ : Certificate} {below : Nat} {root : Bundle}
    (h : Leads [] roots now steps c₀ below root) : Ends now below c₀ root := by
  obtain ⟨c, k, rfl, -, hpath, -, hends⟩ := h
  cases k with
  | zero => exact hends
  | succ k => exact absurd (hpath.member 0 (Nat.succ_pos k)) List.not_mem_nil

theorem Leads.prepend {steps : Nat} {c₀ c₁ : Certificate} {below : Nat} {root : Bundle} (hu : c₀.Usable now)
    (hm : c₁ ∈ pool) (hd : c₁ ≠ c₀) (hl : Links c₀ c₁ below)
    (h : Leads pool roots now steps c₁ (above below c₁) root) : Leads pool roots now (steps + 1) c₀ below root := by
  obtain ⟨c, k, rfl, hk, hpath, hroot, hends⟩ := h
  refine ⟨Certificate.prepend c₀ c, k + 1, rfl, by omega, hpath.prepend hu hm hd hl, hroot, ?_⟩
  rw [between_succ]
  exact hends

theorem leads_of_findRoot? {steps : Nat} {c₀ : Certificate} {below : Nat} {root : Bundle}
    (h : findRoot? pool roots now steps c₀ below = some root) : Leads pool roots now steps c₀ below root := by
  induction steps generalizing c₀ below with
  | zero => cases h
  | succ steps ih =>
    rw [findRoot?] at h
    split at h
    · next hu =>
      have hu' := isUsable_iff.mp hu
      split at h
      · next found hfind =>
        cases h
        have hends := endsAt_iff.mp (List.find?_some hfind)
        exact ⟨fun _ => c₀, 0, rfl, by omega, .single hu', List.mem_of_find?_eq_some hfind, hends⟩
      · obtain ⟨parent, hmem, hsome⟩ := List.exists_of_findSome?_eq_some h
        split at hsome
        · cases hsome
        · next hcond =>
          simp only [Bool.or_eq_true, beq_iff_eq, Bool.not_eq_true', not_or, Bool.not_eq_false, issuedBy_iff] at hcond
          exact (ih hsome).prepend hu' hmem hcond.1 hcond.2
    · cases h

theorem isSome_findRoot? {steps : Nat} {c₀ : Certificate} {below : Nat} {root : Bundle}
    (h : Leads pool roots now steps c₀ below root) : (findRoot? pool roots now steps c₀ below).isSome = true := by
  induction steps generalizing c₀ below with
  | zero =>
    obtain ⟨c, k, -, hk, -⟩ := h
    exact absurd hk (Nat.not_lt_zero k)
  | succ steps ih =>
    obtain ⟨c, k, rfl, hk, hpath, hroot, hends⟩ := h
    rw [findRoot?, if_pos (isUsable_iff.mpr (hpath.usable 0 (by omega)))]
    split
    · rfl
    · next hnone =>
      cases k with
      | zero =>
        have := List.find?_eq_none.mp hnone root hroot
        exact absurd (endsAt_iff.mpr hends) this
      | succ k =>
        have hlink : (c 0).issuedBy (c 1) below = true := issuedBy_iff.mpr (hpath.links 0 (by omega))
        have hrest : Leads pool roots now steps (c 1) (above below (c 1)) root := by
          refine ⟨fun i => c (i + 1), k, rfl, by omega, hpath.tail, hroot, ?_⟩
          rw [← between_succ]
          exact hends
        rw [List.findSome?_isSome_iff]
        refine ⟨c 1, hpath.member 0 (by omega), ?_⟩
        have hne : (c 1 == c 0) = false := beq_eq_false_iff_ne.mpr (hpath.different 0 (by omega))
        rw [hne, hlink]
        exact ih hrest

end Search

end Signet.Certificate

namespace Signet.Bundle

open Certificate

/-- The certificates `c 0` to `c k` lead from the one of a bundle through its chain and further ones to a root. -/
structure Trusts (b : Bundle) (roots intermediates : List Bundle) (now : Int) (c : Nat → Certificate) (k : Nat)
    (root : Bundle) : Prop where
  target : c 0 = b.certificate
  short : k ≤ 8
  path : Path (b.chain ++ intermediates.map Bundle.certificate) now 0 c k
  mem_roots : root ∈ roots
  ends : Ends now (between c k) (c k) root

theorem leads_iff (b : Bundle) (roots intermediates : List Bundle) (now : Int) (root : Bundle) :
    Leads (b.chain ++ intermediates.map Bundle.certificate) roots now (maxDepth + 1) b.certificate 0 root ↔
      ∃ c k, b.Trusts roots intermediates now c k root := by
  constructor
  · rintro ⟨c, k, h0, hk, hpath, hroot, hends⟩
    rw [Nat.zero_add] at hends
    exact ⟨c, k, h0, Nat.le_of_lt_succ hk, hpath, hroot, hends⟩
  · rintro ⟨c, k, h0, hk, hpath, hroot, hends⟩
    refine ⟨c, k, h0, Nat.lt_succ_of_le hk, hpath, hroot, ?_⟩
    rw [Nat.zero_add]
    exact hends

theorem check_eq_ok {b : Bundle} {roots intermediates : List Bundle} {now : Int} {organization : String} :
    b.check roots intermediates now = .ok organization ↔
      roots ≠ [] ∧ ∃ root, findRoot? (b.chain ++ intermediates.map Bundle.certificate) roots now (maxDepth + 1)
        b.certificate 0 = some root ∧ organization = root.organization?.getD "" := by
  have hroots : roots.isEmpty = true ↔ roots = [] := List.isEmpty_iff
  by_cases hne : roots = []
  · rw [check, if_pos (hroots.mpr hne)]
    constructor
    · intro h
      cases h
    · intro h
      exact absurd hne h.1
  · rw [check, if_neg (mt hroots.mp hne)]
    cases hfind : findRoot? (b.chain ++ intermediates.map Bundle.certificate) roots now (maxDepth + 1)
        b.certificate 0 with
    | none =>
      simp only [hfind]
      constructor
      · intro h
        cases h
      · rintro ⟨-, _, hsome, -⟩
        cases hsome
    | some root =>
      simp only [hfind]
      constructor
      · rintro ⟨⟩
        exact ⟨hne, root, rfl, rfl⟩
      · rintro ⟨-, _, ⟨⟩, rfl⟩
        rfl

/-- Under a single root, there is no other one to be found. -/
theorem check_root_eq_ok {b root : Bundle} {intermediates : List Bundle} {now : Int} {organization : String} :
    b.check [root] intermediates now = .ok organization ↔
      Leads (b.chain ++ intermediates.map Bundle.certificate) [root] now (maxDepth + 1) b.certificate 0 root ∧
        organization = root.organization?.getD "" := by
  rw [check_eq_ok]
  constructor
  · rintro ⟨-, found, hfind, ho⟩
    have hleads := leads_of_findRoot? hfind
    obtain ⟨-, -, -, -, -, hmem, -⟩ := id hleads
    obtain rfl := List.mem_singleton.mp hmem
    exact ⟨hleads, ho⟩
  · rintro ⟨hleads, ho⟩
    obtain ⟨found, hfind⟩ := Option.isSome_iff_exists.mp (isSome_findRoot? hleads)
    obtain ⟨-, -, -, -, -, hmem, -⟩ := leads_of_findRoot? hfind
    obtain rfl := List.mem_singleton.mp hmem
    exact ⟨by simp, found, hfind, ho⟩

theorem check_root_eq_error {b root : Bundle} {intermediates : List Bundle} {now : Int}
    (h : ∀ organization, b.check [root] intermediates now ≠ .ok organization) :
    b.check [root] intermediates now = .error (.untrusted b.commonName?) := by
  rw [check, if_neg (by simp)] at h ⊢
  cases hfind : findRoot? (b.chain ++ intermediates.map Bundle.certificate) [root] now (maxDepth + 1) b.certificate 0 with
  | none => simp only [hfind]
  | some found =>
    simp only [hfind] at h
    exact absurd rfl (h _)

/-- Without further certificates, nothing is trusted but the root itself and what names it as its issuer. -/
theorem check_root_of_chain_eq_nil {b root : Bundle} (now : Int) (hchain : b.chain = [])
    (hroot : b.certificate ≠ root.certificate) (hissuer : b.certificate.body.issuer ≠ root.certificate.body.subject) :
    b.check [root] [] now = .error (.untrusted b.commonName?) := by
  refine check_root_eq_error fun organization ho => ?_
  have hleads := (check_root_eq_ok.mp ho).1
  rw [hchain, List.map_nil, List.append_nil] at hleads
  rcases hleads.ends_of_nil with heq | ⟨-, hlink⟩
  · exact hroot heq.symm
  · exact hissuer hlink.named

/-- Further certificates do not take trust away. -/
theorem check_root_mono {b root : Bundle} {intermediates intermediates' : List Bundle} {now : Int}
    (hpool : ∀ c ∈ b.chain ++ intermediates.map Bundle.certificate,
      c ∈ b.chain ++ intermediates'.map Bundle.certificate) {organization : String}
    (h : b.check [root] intermediates now = .ok organization) :
    b.check [root] intermediates' now = .ok organization := by
  obtain ⟨hleads, ho⟩ := check_root_eq_ok.mp h
  exact check_root_eq_ok.mpr ⟨hleads.mono hpool, ho⟩

theorem check_root_congr {b root : Bundle} {intermediates intermediates' : List Bundle} (now : Int)
    (hpool : ∀ c, c ∈ b.chain ++ intermediates.map Bundle.certificate ↔
      c ∈ b.chain ++ intermediates'.map Bundle.certificate) :
    b.check [root] intermediates now = b.check [root] intermediates' now := by
  by_cases h : ∃ organization, b.check [root] intermediates now = .ok organization
  · obtain ⟨organization, ho⟩ := h
    rw [ho, check_root_mono (fun c => (hpool c).mp) ho]
  · have hne : ∀ organization, b.check [root] intermediates now ≠ .ok organization := fun o ho => h ⟨o, ho⟩
    have hne' : ∀ organization, b.check [root] intermediates' now ≠ .ok organization := fun o ho =>
      hne o (check_root_mono (fun c => (hpool c).mpr) ho)
    rw [check_root_eq_error hne, check_root_eq_error hne']

/-- A bundle is trusted exactly when a path leads to a root, and the answer is the organization of such a root. -/
theorem check_exact (b : Bundle) (roots intermediates : List Bundle) (now : Int) :
    ((∃ organization, b.check roots intermediates now = .ok organization) ↔
        roots ≠ [] ∧ ∃ c k root, b.Trusts roots intermediates now c k root) ∧
      ∀ organization, b.check roots intermediates now = .ok organization →
        ∃ c k root, b.Trusts roots intermediates now c k root ∧ organization = root.organization?.getD "" := by
  have hanswer : ∀ organization, b.check roots intermediates now = .ok organization →
      roots ≠ [] ∧ ∃ c k root, b.Trusts roots intermediates now c k root ∧
        organization = root.organization?.getD "" := by
    intro organization h
    obtain ⟨hne, root, hfind, ho⟩ := check_eq_ok.mp h
    obtain ⟨c, k, ht⟩ := (b.leads_iff roots intermediates now root).mp (leads_of_findRoot? hfind)
    exact ⟨hne, c, k, root, ht, ho⟩
  refine ⟨⟨?_, ?_⟩, fun organization h => (hanswer organization h).2⟩
  · rintro ⟨organization, h⟩
    obtain ⟨hne, c, k, root, ht, -⟩ := hanswer organization h
    exact ⟨hne, c, k, root, ht⟩
  · rintro ⟨hne, c, k, root, ht⟩
    have hsome := isSome_findRoot? ((b.leads_iff roots intermediates now root).mpr ⟨c, k, ht⟩)
    obtain ⟨root', hfind⟩ := Option.isSome_iff_exists.mp hsome
    exact ⟨_, check_eq_ok.mpr ⟨hne, root', hfind, rfl⟩⟩

end Signet.Bundle
