import Signet.Curve.Basic
import Signet.Der.Oid
import Signet.Digest.Basic

/-!
# Signature suites

A suite pairs a curve and a signature scheme with a hash function. Every key, certificate and signature belongs
to exactly one suite.
-/

namespace Signet

/-- ECDSA over P-256 with SHA-256, or SM2 with SM3. -/
inductive Suite where
  | ecdsaP256
  | sm2
deriving DecidableEq, Repr

namespace Suite

def name : Suite → String
  | ecdsaP256 => "ecdsa_with_sha256"
  | sm2 => "sm2_with_sm3"

def title : Suite → String
  | ecdsaP256 => "EcdsaP256"
  | sm2 => "Sm2"

def ofName? (s : String) : Option Suite :=
  if s = "ecdsa_with_sha256" then some ecdsaP256 else if s = "sm2_with_sm3" then some sm2 else none

def curve : Suite → Curve
  | ecdsaP256 => .p256
  | sm2 => .sm2

def hashAlgorithm : Suite → HashAlgorithm
  | ecdsaP256 => .sha256
  | sm2 => .sm3

def hash (s : Suite) (b : Bytes) : Digest := s.hashAlgorithm.digest b

def supportsBatch : Suite → Bool
  | ecdsaP256 => true
  | sm2 => false

def signatureOid : Suite → Der.Oid
  | ecdsaP256 => .ecdsaWithSha256
  | sm2 => .sm2WithSm3

def curveOid : Suite → Der.Oid
  | ecdsaP256 => .p256
  | sm2 => .sm2

def ofCurveOid? (o : Der.Oid) : Option Suite :=
  if o = ecdsaP256.curveOid then some ecdsaP256 else if o = sm2.curveOid then some sm2 else none

end Suite

/-- The hash function that goes with the suite of the given name in either case; SHA-256 for any other name. -/
def HashAlgorithm.ofSuiteName (s : String) : HashAlgorithm :=
  if s.toLower = Suite.sm2.name then .sm3 else .sha256

end Signet
