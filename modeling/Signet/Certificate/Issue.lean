import Signet.Certificate.Bundle
import Signet.Certificate.Info
import Signet.Key.Signing

/-!
# Issuing certificates

A root certificate is signed by its own key; any other one is signed by the key of an authority of the same suite,
whose certificates the new one carries along unless the authority is its own issuer. The body of a certificate is a
draft until it is signed.
-/

namespace Signet

def Suite.signatureAlgorithm (s : Suite) : Der.AlgorithmIdentifier := ⟨s.signatureOid, none⟩

namespace Issue

def secondsPerYear : Nat := 365 * 24 * 60 * 60

/-- The subject of a new certificate. A text must not be too long for an element. -/
def subjectName (info : SubjectInfo) : Except CertificateError Name :=
  let attributes := info.name.flatMap AttributeSet.attributes
  if attributes.all fun a => a.value.content.length ≤ Der.maxLength then .ok info.name else .error .der

/-- The name of the issuer of a certificate: that of the authority, or the subject's own name for a root. -/
def issuerName (info : SubjectInfo) (subject signer : Key) (issuer : Option Bundle) (profile : Profile) :
    Except CertificateError Name :=
  match issuer, profile with
  | none, .root => if subject.samePublic signer then .ok info.name else .error .keyMismatch
  | some ca, .intermediate | some ca, .leaf => do
    CertificateError.ofCrypto (signer.suite.expect ca.suite)
    if ca.certificate.isCa = false then throw (.notCa ca.commonName?)
    if ca.key.samePublic signer then return ca.subject else throw .keyMismatch
  | _, profile => .error (.invalidInfo (.wrongParent profile))

/-- The validity from `now` on for a number of years. The last moment must not lie beyond the year 9999. -/
def validity (now : Nat) (years : UInt32) : Except CertificateError Validity :=
  match DateTime.ofUnix? now, DateTime.ofUnix? (now + years.toNat * secondsPerYear) with
  | some a, some b => .ok ⟨.general a, .general b⟩
  | _, _ => .error .der

def usage : Profile → KeyUsage
  | .root | .intermediate => [.digitalSignature, .keyEncipherment, .keyCertSign, .cRLSign]
  | .leaf => [.digitalSignature, .keyEncipherment]

def extensionList (suite : Suite) (info : SubjectInfo) (subject : Key) (issuer : Option Bundle) (profile : Profile) :
    List Extension :=
  let forCa (x : Extension) : List Extension := if profile.isCa then [x] else []
  let issuerKey := (issuer.bind fun ca => ca.certificate.subjectKeyId?).toList
  [.ofContent .keyUsage true (usage profile).toElement]
    ++ forCa (.ofContent .extendedKeyUsage false (Extension.usages [.serverAuth, .clientAuth]))
    ++ [.ofContent .basicConstraints true
      (BasicConstraints.mk profile.isCa (if profile.isCa then info.maxPathLength else none)).toElement]
    ++ forCa (.ofContent .subjectKeyId false (.ofOctets (suite.hash subject.pointBytes).bytes))
    ++ issuerKey.map (fun id => .ofContent .authorityKeyId false (Extension.issuerKey id))
    ++ [.ofContent .subjectAltName false (Extension.hostName (Bytes.ofString info.commonName))]

/-- The extensions of a certificate. The common name has to be ASCII, because it is the host name too, and no content
may be too long. -/
def extensions (suite : Suite) (info : SubjectInfo) (subject : Key) (issuer : Option Bundle) (profile : Profile) :
    Except CertificateError (List Extension) :=
  let xs := extensionList suite info subject issuer profile
  let isAscii := (Bytes.ofString info.commonName).all (· < 128)
  if isAscii ∧ xs.all (·.value.length ≤ Der.maxLength) then .ok xs else .error .der

/-- The bytes of a serial number that is positive and has no leading zero. -/
def serialBytes : Bytes → Bytes
  | [] => []
  | x :: b => max (x &&& 0x7f) 1 :: b

def drawSerial (e : Entropy) : Except CertificateError (SerialNumber × Entropy) :=
  match e.draw? 16 with
  | none => .error (.crypto .rng)
  | some (b, e) =>
    match SerialNumber.ofElement? ⟨Der.integerTag, serialBytes b⟩ with
    | some s => .ok (s, e)
    | none => .error .der

/-- The body of a new certificate, and the random bytes that are left. -/
def draft (info : SubjectInfo) (subject signer : Key) (issuer : Option Bundle) (profile : Profile) (now : Nat)
    (entropy : Entropy) : Except CertificateError (CertificateBody × Entropy) := do
  info.validate
  if signer.isPrivate = false then throw (.crypto .publicKeyCannotSign)
  CertificateError.ofCrypto (signer.suite.expect subject.suite)
  let name ← subjectName info
  let issuerName ← issuerName info subject signer issuer profile
  let validity ← validity now info.years
  let extensions ← extensions signer.suite info subject issuer profile
  let (serial, entropy) ← drawSerial entropy
  return ({
    version := .v3
    serial := serial
    algorithm := signer.suite.signatureAlgorithm
    issuer := issuerName
    validity := validity
    subject := name
    publicKey := Key.publicInfo subject.suite subject.point
    issuerId := none
    subjectId := none
    extensions := some extensions }, entropy)

/-- Signs a body that is not too long. -/
def certify (signer : Key) (body : CertificateBody) : Except CertificateError Certificate := do
  if Der.maxLength < body.encode.length then throw .der
  let signature ← CertificateError.ofCrypto (signer.sign body.encode)
  return ⟨body, signer.suite.signatureAlgorithm, .ofBytes signature⟩

/-- The certificates that a new certificate carries along: the authority's own one and those above it, unless the
authority is its own issuer. -/
def chain : Option Bundle → List Certificate
  | none => []
  | some ca => if ca.certificate.isSelfIssued then [] else ca.certificate :: ca.chain

end Issue

/-- A new certificate for the key `subject`, signed by `signer` under the authority `issuer` at the time `now`. -/
def issue (info : SubjectInfo) (subject signer : Key) (issuer : Option Bundle) (profile : Profile) (now : Nat)
    (entropy : Entropy) : Except CertificateError (Bundle × Entropy) := do
  let (body, rest) ← Issue.draft info subject signer issuer profile now entropy
  let certificate ← Issue.certify signer body
  let bundle ← Bundle.ofCertificate certificate (Issue.chain issuer)
  return (bundle, rest)

end Signet
