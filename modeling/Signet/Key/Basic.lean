import Signet.Curve.Encoding
import Signet.Curve.Jacobian
import Signet.Error
import Signet.Random.Entropy

/-!
# Keys

A key is a point of the curve of its suite, with the scalar that it is a multiple of when the key is private. It
keeps the PEM text that it was read from.
-/

namespace Signet

structure Key where
  suite : Suite
  secret : Option Nat
  point : Point
  pem : Bytes
deriving DecidableEq, Repr

namespace Key

def isPrivate (k : Key) : Bool := k.secret.isSome

def pointBytes (k : Key) : Bytes := Curve.encodePoint k.point

/-- Whether two keys have the same suite and point. -/
def samePublic (k l : Key) : Bool := k.suite == l.suite && k.pointBytes == l.pointBytes

def describe (k : Key) : String :=
  "Key \x7b suite: " ++ k.suite.title ++ ", private: " ++ (if k.isPrivate then "true" else "false")
    ++ ", point: " ++ Text.quote (Hex.encode k.pointBytes) ++ " \x7d"

end Key

end Signet
