import Signet.Batch.Error

/-!
# Errors of certificates and identities
-/

namespace Signet

inductive Profile where
  | root
  | intermediate
  | leaf
deriving DecidableEq, Repr

namespace Profile

def title : Profile → String
  | root => "Root"
  | intermediate => "Intermediate"
  | leaf => "Leaf"

def isCa : Profile → Bool
  | root | intermediate => true
  | leaf => false

end Profile

inductive InfoFault where
  | emptyCommonName
  | noYears
  | wrongParent (profile : Profile)
  | publicIdentityKey
deriving DecidableEq, Repr

def InfoFault.message : InfoFault → String
  | emptyCommonName => "common name is empty"
  | noYears => "validation years must be positive"
  | wrongParent p => p.title ++ " certificate issued with the wrong parent"
  | publicIdentityKey => "identity key must be private"

inductive CertificateError where
  | noBlock
  | invalidInfo (fault : InfoFault)
  | emptyRoots
  | untrusted (commonName : Option String)
  | notCa (commonName : Option String)
  | keyMismatch
  | batchUnsupported (suite : Suite)
  | der
  | file (error : FileError)
  | crypto (error : CryptoError)
  | batch (error : BatchError)
deriving DecidableEq, Repr

namespace CertificateError

def message : CertificateError → String
  | noBlock => "Invalid certificate: no CERTIFICATE block"
  | invalidInfo f => "Invalid certificate info: " ++ f.message
  | emptyRoots => "No root certificates supplied"
  | untrusted name => "Certificate chain is not trusted: " ++ name.getD "<no common name>"
  | notCa name => "Issuer certificate is not a CA: " ++ name.getD ""
  | keyMismatch => "Private key does not match certificate"
  | batchUnsupported s => "Batch verification not supported for " ++ s.name
  | der => CryptoError.der.message
  | file e => "I/O error: " ++ e.message
  | crypto e => "Core error: " ++ e.message
  | batch e => "Batch error: " ++ e.message

def kind : CertificateError → ErrorKind
  | noBlock | der => .format
  | invalidInfo _ | emptyRoots | notCa _ | keyMismatch | batchUnsupported _ | file _ => .config
  | untrusted _ => .crypto
  | crypto e => e.kind
  | batch e => e.kind

/-- An error of the cryptographic layer as one of certificates. -/
def ofCrypto {α : Type} (x : Except CryptoError α) : Except CertificateError α := x.mapError crypto

end CertificateError

end Signet
