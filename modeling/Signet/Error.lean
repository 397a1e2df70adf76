import Signet.Suite
import Signet.Text.Quoted

/-!
# Errors of the cryptographic layer

Each error is a cause. Its kind and its message are computed from it.
-/

namespace Signet

inductive ErrorKind where
  | config
  | format
  | crypto
  | resourceGap
deriving DecidableEq, Repr

def ErrorKind.name : ErrorKind → String
  | config => "config"
  | format => "format"
  | crypto => "crypto"
  | resourceGap => "resource-gap"

inductive FileError where
  | notFound
  | isDirectory
  | notDirectory
  | nameTooLong
  | nulInName
  | notText
  | other (text : String)
deriving DecidableEq, Repr

def FileError.message : FileError → String
  | notFound => "No such file or directory (os error 2)"
  | isDirectory => "Is a directory (os error 21)"
  | notDirectory => "Not a directory (os error 20)"
  | nameTooLong => "File name too long (os error 36)"
  | nulInName => "file name contained an unexpected NUL byte"
  | notText => "stream did not contain valid UTF-8"
  | other s => s

def Hex.Error.message : Hex.Error → String
  | oddLength => "Odd number of digits"
  | badDigit c i => "Invalid character " ++ Text.quoteChar c ++ " at position " ++ i.repr
  | wrongLength => "Invalid string length"

inductive Axis where
  | x
  | y
deriving DecidableEq, Repr

def Axis.name : Axis → String
  | x => "x"
  | y => "y"

inductive KeyFault where
  | encoding
  | missingLength (axis : Axis)
  | missingCoordinate (axis : Axis)
  | longCoordinate (axis : Axis)
  | offCurve (suite : Suite)
deriving DecidableEq, Repr

def KeyFault.message : KeyFault → String
  | encoding => "not a key"
  | missingLength a => "key buffer truncated: no " ++ a.name ++ " length"
  | missingCoordinate a => "key buffer truncated: " ++ a.name ++ " coordinate"
  | longCoordinate a => a.name ++ " coordinate too long"
  | offCurve .ecdsaP256 => "point is not on P-256"
  | offCurve .sm2 => "point is not on the SM2 curve"

inductive SignatureFault where
  | encoding
  | longInteger (size : Nat)
deriving DecidableEq, Repr

def SignatureFault.message : SignatureFault → String
  | encoding => "not a signature"
  | longInteger n => "integer of " ++ n.repr ++ " bytes exceeds 32"

inductive CiphertextFault where
  | short (size : Nat)
  | ragged (size : Nat)
deriving DecidableEq, Repr

def CiphertextFault.message : CiphertextFault → String
  | short n => "length " ++ n.repr ++ " is shorter than 32"
  | ragged n => "length " ++ n.repr ++ " is not a multiple of 16"

inductive CryptoError where
  | unsupportedAlgorithm (name : String)
  | unknownPemLabel (label : String)
  | suiteMismatch (expected found : Suite)
  | malformedKey (fault : KeyFault)
  | malformedSignature (fault : SignatureFault)
  | invalidCiphertext (fault : CiphertextFault)
  | invalidPadding
  | invalidKeyLength (size : Nat)
  | der
  | base64
  | hexDecode (error : Hex.Error)
  | publicKeyCannotSign
  | scalarOutOfRange
  | invalidSignature
  | signing
  | rng
  | file (error : FileError)
deriving DecidableEq, Repr

namespace CryptoError

def message : CryptoError → String
  | unsupportedAlgorithm s => "Unsupported algorithm: " ++ s
  | unknownPemLabel s => "Unknown PEM block type: " ++ s
  | suiteMismatch e f => "Suite mismatch: expected " ++ e.name ++ ", got " ++ f.name
  | malformedKey f => "Malformed key: " ++ f.message
  | malformedSignature f => "Malformed signature: " ++ f.message
  | invalidCiphertext f => "Invalid ciphertext: " ++ f.message
  | invalidPadding => "Invalid padding"
  | invalidKeyLength n => "Invalid key length: expected 16, got " ++ n.repr
  | der => "DER error: malformed encoding"
  | base64 => "Base64 decode error: malformed text"
  | hexDecode e => "Hex decode error: " ++ e.message
  | publicKeyCannotSign => "Public key cannot sign"
  | scalarOutOfRange => "Scalar out of range"
  | invalidSignature => "Invalid signature"
  | signing => "Signing failed: degenerate nonce"
  | rng => "Random number generator failure: no bytes left"
  | file e => "I/O error: " ++ e.message

def kind : CryptoError → ErrorKind
  | unsupportedAlgorithm _ | unknownPemLabel _ | suiteMismatch _ _ | file _ => .config
  | malformedKey _ | malformedSignature _ | invalidCiphertext _ | invalidPadding | invalidKeyLength _ | der
  | base64 | hexDecode _ => .format
  | publicKeyCannotSign | scalarOutOfRange | invalidSignature | signing | rng => .crypto

end CryptoError

/-- The hash function with the given name in either case; `sha-256` is another name of SHA-256. -/
def HashAlgorithm.parse (s : String) : Except CryptoError HashAlgorithm :=
  match if s.toLower = "sha-256" then some .sha256 else ofName? s.toLower with
  | some h => .ok h
  | none => .error (.unsupportedAlgorithm s.toLower)

namespace Suite

def parse (s : String) : Except CryptoError Suite :=
  match ofName? s.toLower with
  | some u => .ok u
  | none => .error (.unsupportedAlgorithm s)

def expect (s found : Suite) : Except CryptoError Unit :=
  if s = found then .ok () else .error (.suiteMismatch s found)

end Suite

end Signet
