import Signet.Certificate.Error
import Signet.Config

/-!
# Errors of commands

The error of a command with its causes, the outermost one first, and the report that shows them.
-/

namespace Signet

/-- The errors that an error comes from. -/
def CryptoError.causes : CryptoError → List String
  | .file e => [e.message]
  | .hexDecode e => [e.message]
  | .der => ["malformed encoding"]
  | .base64 => ["malformed text"]
  | _ => []

def CertificateError.causes : CertificateError → List String
  | .der => CryptoError.der.causes
  | .file e => [e.message]
  | .crypto e => e.message :: e.causes
  | .batch e => [e.message]
  | _ => []

inductive CommandError where
  | crypto (error : CryptoError)
  | certificate (error : CertificateError)
  | batch (error : BatchError)
  | config (error : ConfigError)
  | unreadable (path : String) (error : FileError)
  | file (error : FileError)
  | base64
  | noConfiguration
  | noSignatures
deriving DecidableEq, Repr

namespace CommandError

def message : CommandError → String
  | crypto e => e.message
  | certificate e => e.message
  | batch e => e.message
  | config e => e.message
  | unreadable path _ => "failed to read " ++ path
  | file e => e.message
  | base64 => "malformed text"
  | noConfiguration => "Configuration file not found"
  | noSignatures => "count must be positive"

def causes : CommandError → List String
  | crypto e => e.causes
  | certificate e => e.causes
  | unreadable _ e => [e.message]
  | batch _ | config _ | file _ | base64 | noConfiguration | noSignatures => []

/-- The part of the report on the causes. Several of them are numbered. -/
def causeReport : List String → String
  | [] => ""
  | [cause] => "\n\nCaused by:\n    " ++ cause
  | causes => "\n\nCaused by:" ++ String.join (causes.mapIdx fun i cause => "\n    " ++ i.repr ++ ": " ++ cause)

def report (e : CommandError) : String := "Error: " ++ e.message ++ causeReport e.causes ++ "\n"

end CommandError

end Signet
