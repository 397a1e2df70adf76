import Signet.Key.Basic

/-!
# Compact public keys

Each coordinate stands behind its length, a number of two bytes with the low byte first. Bytes after the second
coordinate are ignored.
-/

namespace Signet.Key

/-- The 32 bytes of a coordinate that is written with any number of leading zeros. -/
def fixedCoordinate (axis : Axis) (b : Bytes) : Except CryptoError Bytes :=
  let c := Bytes.stripZeros b
  if c.length ≤ Curve.coordinateSize then .ok (Bytes.padLeft Curve.coordinateSize c)
  else .error (.malformedKey (.longCoordinate axis))

/-- The tagged point of a compact public key. At least one byte has to follow the second length. -/
def bufferPoint (b : Bytes) : Except CryptoError Bytes :=
  let xLen := Bytes.toNatLE (b.take 2)
  let yLen := Bytes.toNatLE ((b.drop (xLen + 2)).take 2)
  if b.length ≤ 2 then .error (.malformedKey (.missingLength .x))
  else if b.length < xLen + 2 then .error (.malformedKey (.missingCoordinate .x))
  else if b.length ≤ xLen + 4 then .error (.malformedKey (.missingLength .y))
  else if b.length < xLen + yLen + 4 then .error (.malformedKey (.missingCoordinate .y))
  else do
    let x ← fixedCoordinate .x ((b.drop 2).take xLen)
    let y ← fixedCoordinate .y ((b.drop (xLen + 4)).take yLen)
    return 4 :: x ++ y

def toBuffer (k : Key) : Bytes :=
  let c := Curve.coordinates k.point
  Bytes.ofNatLE 2 Curve.coordinateSize ++ c.take Curve.coordinateSize
    ++ Bytes.ofNatLE 2 Curve.coordinateSize ++ c.drop Curve.coordinateSize

end Signet.Key
