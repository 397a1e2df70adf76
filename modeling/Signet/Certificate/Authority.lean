import Signet.Certificate.Issue

/-!
# Authorities of a suite

Issuing and reading certificates where everything has to belong to one suite.
-/

namespace Signet.Suite

variable (s : Suite)

/-- Refuses keys and authorities of other suites. -/
def expectAll (subject signer : Key) (ca : Bundle) : Except CertificateError Unit := do
  CertificateError.ofCrypto (s.expect subject.suite)
  CertificateError.ofCrypto (s.expect signer.suite)
  CertificateError.ofCrypto (s.expect ca.suite)

def issueRoot (info : SubjectInfo) (key : Key) (now : Nat) (entropy : Entropy) :
    Except CertificateError (Bundle × Entropy) := do
  CertificateError.ofCrypto (s.expect key.suite)
  issue info key key none .root now entropy

def issueIntermediate (info : SubjectInfo) (subject signer : Key) (ca : Bundle) (now : Nat) (entropy : Entropy) :
    Except CertificateError (Bundle × Entropy) := do
  s.expectAll subject signer ca
  issue info subject signer (some ca) .intermediate now entropy

def issueLeaf (info : SubjectInfo) (subject signer : Key) (ca : Bundle) (now : Nat) (entropy : Entropy) :
    Except CertificateError (Bundle × Entropy) := do
  s.expectAll subject signer ca
  issue info subject signer (some ca) .leaf now entropy

def readBundle (b : Bytes) : Except CertificateError Bundle := do
  let bundle ← Bundle.ofPem b
  CertificateError.ofCrypto (s.expect bundle.suite)
  return bundle

end Signet.Suite
