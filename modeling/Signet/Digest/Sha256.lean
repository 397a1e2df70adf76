import Signet.Digest.Block

/-!
# SHA-256
-/

namespace Signet.Digest.Sha256

def initial : State :=
  ⟨0x6a09e667, 0xbb67ae85, 0x3c6ef372, 0xa54ff53a,
    0x510e527f, 0x9b05688c, 0x1f83d9ab, 0x5be0cd19⟩

def constants : List Word := [
  0x428a2f98, 0x71374491, 0xb5c0fbcf, 0xe9b5dba5, 0x3956c25b, 0x59f111f1, 0x923f82a4, 0xab1c5ed5,
  0xd807aa98, 0x12835b01, 0x243185be, 0x550c7dc3, 0x72be5d74, 0x80deb1fe, 0x9bdc06a7, 0xc19bf174,
  0xe49b69c1, 0xefbe4786, 0x0fc19dc6, 0x240ca1cc, 0x2de92c6f, 0x4a7484aa, 0x5cb0a9dc, 0x76f988da,
  0x983e5152, 0xa831c66d, 0xb00327c8, 0xbf597fc7, 0xc6e00bf3, 0xd5a79147, 0x06ca6351, 0x14292967,
  0x27b70a85, 0x2e1b2138, 0x4d2c6dfc, 0x53380d13, 0x650a7354, 0x766a0abb, 0x81c2c92e, 0x92722c85,
  0xa2bfe8a1, 0xa81a664b, 0xc24b8b70, 0xc76c51a3, 0xd192e819, 0xd6990624, 0xf40e3585, 0x106aa070,
  0x19a4c116, 0x1e376c08, 0x2748774c, 0x34b0bcb5, 0x391c0cb3, 0x4ed8aa4a, 0x5b9cca4f, 0x682e6ff3,
  0x748f82ee, 0x78a5636f, 0x84c87814, 0x8cc70208, 0x90befffa, 0xa4506ceb, 0xbef9a3f7, 0xc67178f2]

/-- A word of the message schedule, made from those 16, 15, 7 and 2 places before it. -/
def nextWord (w16 w15 w7 w2 : Word) : Word :=
  let s0 := rotateRight w15 7 ^^^ rotateRight w15 18 ^^^ w15 >>> 3
  let s1 := rotateRight w2 17 ^^^ rotateRight w2 19 ^^^ w2 >>> 10
  wrap (s1 + w7 + s0 + w16)

/-- The row of the message schedule after a window. -/
def nextRow (v : Window) : Row :=
  let a := nextWord v.w.a v.w.b v.y.b v.z.c
  let b := nextWord v.w.b v.w.c v.y.c v.z.d
  ⟨a, b, nextWord v.w.c v.w.d v.y.d a, nextWord v.w.d v.x.a v.z.a b⟩

def round (s : State) (k w : Word) : State :=
  let s1 := rotateRight s.e 6 ^^^ rotateRight s.e 11 ^^^ rotateRight s.e 25
  let ch := (s.e &&& s.f) ^^^ (complement s.e &&& s.g)
  let t1 := s.h + s1 + ch + k + w
  let s0 := rotateRight s.a 2 ^^^ rotateRight s.a 13 ^^^ rotateRight s.a 22
  let maj := (s.a &&& s.b) ^^^ (s.a &&& s.c) ^^^ (s.b &&& s.c)
  ⟨wrap (t1 + s0 + maj), s.a, s.b, s.c, wrap (s.d + t1), s.e, s.f, s.g⟩

/-- Runs four rounds for each row of constants, with the rows of the message schedule from a window on. -/
def rounds : (ks : List Row) → Window → State → State
  | [], _, s => s
  | k :: ks, v, s =>
    rounds ks (v.push (nextRow v)) (round (round (round (round s k.a v.w.a) k.b v.w.b) k.c v.w.c) k.d v.w.d)

def compress (s : State) (block : Window) : State :=
  s.zipWith (fun v w => wrap (v + w)) (rounds (rows constants) block s)

def hash (b : Bytes) : Bytes := (foldBlocks compress initial (rows (words (pad b)))).bytes

end Signet.Digest.Sha256
