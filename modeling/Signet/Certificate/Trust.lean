import Signet.Certificate.Bundle
import Signet.Key.Signing

/-!
# Trust in certificates

A certificate is trusted if a path of issuers leads from it to a root. The search goes through the roots first and
then, depth first, through a pool of intermediate certificates.
-/

namespace Signet

namespace Certificate

def knownExtensions : List Der.Oid :=
  [.basicConstraints, .keyUsage, .extendedKeyUsage, .subjectAltName, .subjectKeyId, .authorityKeyId]

/-- Whether a certificate has a critical extension of unknown meaning. -/
def hasUnknownCritical (c : Certificate) : Bool :=
  c.extensions.any fun x => x.critical && !knownExtensions.contains x.id

def isUsable (c : Certificate) (now : Int) : Bool := c.isValidAt now && !c.hasUnknownCritical

/-- Whether the extended usages of a certificate, if it names any, are among those of its issuer. -/
def usagesWithin (child parent : Certificate) : Bool :=
  match child.extendedUsages?, parent.extendedUsages? with
  | some us, some allowed => allowed.contains .anyUsage || us.all allowed.contains
  | _, _ => true

/-- Whether an authority may stand above a number of other authorities. -/
def allowsBelow (parent : Certificate) (below : Nat) : Bool :=
  match parent.basicConstraints? with
  | some b => b.ca && b.pathLength.all fun n => below ≤ n.toNat
  | none => false

def maySign (parent : Certificate) : Bool := parent.keyUsage?.all fun u => u.contains .keyCertSign

/-- Whether the signature of a certificate was made by the key of another one. -/
def isSignedBy (child parent : Certificate) : Bool :=
  match Key.ofPublicInfo parent.body.publicKey with
  | .error _ => false
  | .ok k =>
    child.algorithm.algorithm == k.suite.signatureOid
      && (k.verify child.body.encode child.signature.bytes).isOk

/-- Whether `parent` issued `child` and may stand above `below` other authorities that are not their own issuers. -/
def issuedBy (child parent : Certificate) (below : Nat) : Bool :=
  child.body.issuer == parent.body.subject && parent.allowsBelow below && parent.maySign
    && child.usagesWithin parent && child.isSignedBy parent

/-- Whether a root ends the path at `c`: it is this certificate, or it issued it. -/
def endsAt (c : Certificate) (now : Int) (below : Nat) (root : Bundle) : Bool :=
  root.certificate == c || (root.certificate.isUsable now && c.issuedBy root.certificate below)

/-- The first root to which a path of at most `steps` certificates leads, the first of which is `c`. -/
def findRoot? (pool : List Certificate) (roots : List Bundle) (now : Int) :
    (steps : Nat) → (c : Certificate) → (below : Nat) → Option Bundle
  | 0, _, _ => none
  | steps + 1, c, below =>
    if c.isUsable now then
      match roots.find? (c.endsAt now below) with
      | some root => some root
      | none =>
        pool.findSome? fun parent =>
          if parent == c || !c.issuedBy parent below then none
          else findRoot? pool roots now steps parent (if parent.isSelfIssued then below else below + 1)
    else none

/-- The largest number of intermediate certificates on a path. -/
def maxDepth : Nat := 8

end Certificate

/-- The organization of the root that a bundle leads to at the time `now`, with further intermediate certificates. -/
def Bundle.check (b : Bundle) (roots intermediates : List Bundle) (now : Int) : Except CertificateError String :=
  if roots.isEmpty then .error .emptyRoots
  else
    let pool := b.chain ++ intermediates.map Bundle.certificate
    match b.certificate.findRoot? pool roots now (Certificate.maxDepth + 1) 0 with
    | some root => .ok (root.organization?.getD "")
    | none => .error (.untrusted b.commonName?)

end Signet
