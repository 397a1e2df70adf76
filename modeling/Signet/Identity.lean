import Signet.Certificate.Authority

/-!
# Identities

An identity is a private key together with the certificate for its public key.
-/

namespace Signet

structure Identity where
  suite : Suite
  key : Key
  bundle : Bundle

namespace Identity

def ofPem (algorithm : String) (certificate key : Bytes) : Except CertificateError Identity := do
  let suite ← CertificateError.ofCrypto (Suite.parse algorithm)
  let bundle ← suite.readBundle certificate
  let key ← CertificateError.ofCrypto (Key.ofPem suite key)
  if key.isPrivate = false then throw (.invalidInfo .publicIdentityKey)
  if key.samePublic bundle.key then return ⟨suite, key, bundle⟩ else throw .keyMismatch

def ofFiles (algorithm : String) (certificate key : Except FileError Bytes) : Except CertificateError Identity := do
  let certificate ← certificate.mapError .file
  let key ← key.mapError .file
  ofPem algorithm certificate key

variable (i : Identity)

def commonName : String := i.bundle.commonName?.getD ""

def organization : String := i.bundle.organization?.getD ""

def sign (message : Bytes) : Except CertificateError Bytes := CertificateError.ofCrypto (i.key.sign message)

def signForBatch (message : Bytes) (e : Entropy) : Except CertificateError (Bytes × Entropy) :=
  CertificateError.ofCrypto (i.key.signForBatch message e)

end Identity

end Signet
