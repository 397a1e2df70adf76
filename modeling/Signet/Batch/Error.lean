import Signet.Error

/-!
# Errors of batch verification
-/

namespace Signet

inductive BatchError where
  | missingArrays (size : Nat)
  | lengthMismatch (messages signatures : Nat)
  | emptyBatch
  | invalidSize (size : Nat)
  | malformedSignature (index : Nat) (fault : SignatureFault)
  | outOfRange (index : Nat)
  | pointNotOnCurve (index : Nat)
  | pointMismatch (index : Nat)
  | indexOutOfRange (index size : Nat)
  | sizeMismatch (expected found : Nat)
  | rejected
  | unsupportedSuite (suite : Suite)
  | rng
deriving DecidableEq, Repr

namespace BatchError

def message : BatchError → String
  | missingArrays n => "No random arrays cached for batch size " ++ n.repr
  | lengthMismatch m s => "Batch length mismatch: " ++ m.repr ++ " messages, " ++ s.repr ++ " signatures"
  | emptyBatch => "Empty batch"
  | invalidSize n => "Invalid batch size: " ++ n.repr
  | malformedSignature i f =>
    "Malformed signature at index " ++ i.repr ++ ": " ++ (CryptoError.malformedSignature f).message
  | outOfRange i => "Signature value out of range at index " ++ i.repr
  | pointNotOnCurve i => "Ephemeral point at index " ++ i.repr ++ " is not on the curve"
  | pointMismatch i => "Ephemeral point at index " ++ i.repr ++ " does not match r"
  | indexOutOfRange i n => "Schedule index out of range: " ++ i.repr ++ " >= " ++ n.repr
  | sizeMismatch e f => "Random arrays for size " ++ e.repr ++ " used with " ++ f.repr ++ " signatures"
  | rejected => "Batch verification failed"
  | unsupportedSuite s => "Batch verification not supported for " ++ s.name
  | rng => CryptoError.rng.message

def kind : BatchError → ErrorKind
  | missingArrays _ => .resourceGap
  | invalidSize _ | unsupportedSuite _ => .config
  | lengthMismatch _ _ | emptyBatch | malformedSignature _ _ => .format
  | outOfRange _ | pointNotOnCurve _ | pointMismatch _ | indexOutOfRange _ _ | sizeMismatch _ _ | rejected
  | rng => .crypto

end BatchError

end Signet
