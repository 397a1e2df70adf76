import Signet.Digest.Block

/-!
# SM3
-/

namespace Signet.Digest.Sm3

def initial : State :=
  ⟨0x7380166f, 0x4914b2b9, 0x172442d7, 0xda8a0600,
    0xa96f30bc, 0x163138aa, 0xe38dee4d, 0xb0fb0e4e⟩

/-- A permutation of words that feeds the next chaining value. -/
def p0 (x : Word) : Word := x ^^^ rotateLeft x 9 ^^^ rotateLeft x 17

/-- A permutation of words that feeds the message schedule. -/
def p1 (x : Word) : Word := x ^^^ rotateLeft x 15 ^^^ rotateLeft x 23

/-- A word of the message schedule, made from those 16, 13, 9, 6 and 3 places before it. -/
def nextWord (w16 w13 w9 w6 w3 : Word) : Word := p1 (w16 ^^^ w9 ^^^ rotateLeft w3 15) ^^^ rotateLeft w13 7 ^^^ w6

/-- The row of the message schedule after a window. -/
def nextRow (v : Window) : Row :=
  let a := nextWord v.w.a v.w.d v.x.d v.y.c v.z.b
  ⟨a, nextWord v.w.b v.x.a v.y.a v.y.d v.z.c, nextWord v.w.c v.x.b v.y.b v.z.a v.z.d,
    nextWord v.w.d v.x.c v.y.c v.z.b a⟩

/-- The constants of the 64 rounds: a word for the first 16 rounds and one for the others, each rotated by
one bit a round. -/
def constants : List Word :=
  (List.range 64).map fun j => rotateLeft (if j < 16 then 0x79cc4519 else 0x7a879d8a) (j % 32)

/-- A round with the word `w`, and the word `w4` four places after it. -/
def round (s : State) (isEarly : Bool) (k w w4 : Word) : State :=
  let a12 := rotateLeft s.a 12
  let ss1 := rotateLeft (wrap (a12 + s.e + k)) 7
  let ss2 := ss1 ^^^ a12
  let ff := if isEarly then s.a ^^^ s.b ^^^ s.c else (s.a &&& s.b) ||| (s.a &&& s.c) ||| (s.b &&& s.c)
  let gg := if isEarly then s.e ^^^ s.f ^^^ s.g else (s.e &&& s.f) ||| (complement s.e &&& s.g)
  let tt1 := wrap (ff + s.d + ss2 + (w ^^^ w4))
  let tt2 := wrap (gg + s.h + ss1 + w)
  ⟨tt1, s.a, rotateLeft s.b 9, s.c, p0 tt2, s.e, rotateLeft s.f 19, s.g⟩

/-- Runs the rounds from row `j` of the constants on, with the rows of the message schedule from a window on. The first
four rows are early ones. -/
def rounds : (j : Nat) → (ks : List Row) → Window → State → State
  | _, [], _, s => s
  | j, k :: ks, v, s =>
    let step (k w w4 : Word) (s : State) := round s (j < 4) k w w4
    rounds (j + 1) ks (v.push (nextRow v))
      (step k.d v.w.d v.x.d (step k.c v.w.c v.x.c (step k.b v.w.b v.x.b (step k.a v.w.a v.x.a s))))

def compress (s : State) (block : Window) : State := s.zipWith (· ^^^ ·) (rounds 0 (rows constants) block s)

def hash (b : Bytes) : Bytes := (foldBlocks compress initial (rows (words (pad b)))).bytes

end Signet.Digest.Sm3
