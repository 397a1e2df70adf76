import Signet.Batch.Error
import Signet.Curve.Encoding
import Signet.Key.Signing

/-!
# Entries of a batch

A rich signature with its position in the batch, reduced to what the combined check needs.
-/

namespace Signet

/-- The number `r` of a signature, the inverse of its number `s`, and its ephemeral point. -/
structure BatchEntry where
  r : Nat
  inverse : Nat
  point : Point
deriving DecidableEq, Repr

namespace BatchEntry

variable (C : Curve)

def ofNumbers (index : Nat) (r s x y : Word256) : Except BatchError BatchEntry :=
  match C.reduced? r, C.reduced? s, C.reduced? x, C.reduced? y with
  | some r, some s, some x, some y =>
    match C.point? x y with
    | none => .error (.pointNotOnCurve index)
    | some P => if x % C.n = r then .ok ⟨r, Modular.inv C.n s, P⟩ else .error (.pointMismatch index)
  | _, _, _, _ => .error (.outOfRange index)

def decode (index : Nat) (b : Bytes) : Except BatchError BatchEntry :=
  match Signature.ofRichDer b with
  | .ok ⟨r, s, some (x, y)⟩ => ofNumbers C index r s x y
  | .error (.malformedSignature f) => .error (.malformedSignature index f)
  | _ => .error (.malformedSignature index .encoding)

def decodeAll : (index : Nat) → List Bytes → Except BatchError (List BatchEntry)
  | _, [] => .ok []
  | index, b :: bs => do
    let e ← decode C index b
    let es ← decodeAll (index + 1) bs
    return e :: es

end BatchEntry

end Signet
