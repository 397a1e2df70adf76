import Signet.Bytes

/-!
# Padded messages

The two hash functions work on blocks of sixteen words, in rows of four. A word is the number that its four bytes write.
A message is padded with the bit 1, as few zeros as possible and its length in bits, written in eight bytes.
-/

namespace Signet.Digest

def blockSize : Nat := 64

def pad (b : Bytes) : Bytes :=
  b ++ 0x80 :: List.replicate ((119 - b.length % blockSize) % blockSize) 0 ++ Bytes.ofNat 8 (8 * b.length)

/-- A word of 32 bits, as a number below `2 ^ 32`. -/
abbrev Word := Nat

/-- The low 32 bits of a number. -/
def wrap (n : Nat) : Word := n % 0x100000000

def complement (w : Word) : Word := w ^^^ 0xffffffff

def rotateLeft (w : Word) (n : Nat) : Word := wrap (w <<< n) ||| w >>> (32 - n)

def rotateRight (w : Word) (n : Nat) : Word := w >>> n ||| wrap (w <<< (32 - n))

def words : Bytes → List Word
  | a :: b :: c :: d :: rest => Bytes.toNat [a, b, c, d] :: words rest
  | _ => []

structure Row where
  a : Word
  b : Word
  c : Word
  d : Word
deriving DecidableEq, Repr

def rows : List Word → List Row
  | a :: b :: c :: d :: rest => ⟨a, b, c, d⟩ :: rows rest
  | _ => []

/-- Sixteen consecutive words of a message schedule, which begins with a block. -/
structure Window where
  w : Row
  x : Row
  y : Row
  z : Row
deriving DecidableEq, Repr

/-- The window one row further on, where `r` is the row after the window. -/
def Window.push (v : Window) (r : Row) : Window := ⟨v.x, v.y, v.z, r⟩

/-- Runs `step` over the whole blocks among some rows. It is irreducible, as proofs do not look into a digest. -/
@[irreducible]
def foldBlocks {σ : Type} (step : σ → Window → σ) (s : σ) : List Row → σ
  | w :: x :: y :: z :: rest => foldBlocks step (step s ⟨w, x, y, z⟩) rest
  | _ => s

structure State where
  a : Word
  b : Word
  c : Word
  d : Word
  e : Word
  f : Word
  g : Word
  h : Word
deriving DecidableEq, Repr

def State.bytes (s : State) : Bytes := [s.a, s.b, s.c, s.d, s.e, s.f, s.g, s.h].flatMap (Bytes.ofNat 4)

def State.zipWith (op : Word → Word → Word) (s t : State) : State :=
  ⟨op s.a t.a, op s.b t.b, op s.c t.c, op s.d t.d, op s.e t.e, op s.f t.f, op s.g t.g, op s.h t.h⟩

end Signet.Digest
