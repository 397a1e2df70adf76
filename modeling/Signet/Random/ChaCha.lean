import Signet.Bytes
import Signet.Random.Words

/-!
# The ChaCha generator

Random words from a key of 32 bytes: the blocks of ChaCha with 12 rounds for the counters 0, 1, 2 and so on.
-/

namespace Signet.ChaCha

/-- Four words on which a quarter round works. -/
structure Column where
  a : UInt32
  b : UInt32
  c : UInt32
  d : UInt32
deriving DecidableEq, Repr

def rotateLeft (x n : UInt32) : UInt32 := x <<< n ||| x >>> (32 - n)

def Column.quarterRound (q : Column) : Column :=
  let a := q.a + q.b
  let d := rotateLeft (q.d ^^^ a) 16
  let c := q.c + d
  let b := rotateLeft (q.b ^^^ c) 12
  let a := a + b
  let d := rotateLeft (d ^^^ a) 8
  let c := c + d
  let b := rotateLeft (b ^^^ c) 7
  ⟨a, b, c, d⟩

def Column.add (q r : Column) : Column := ⟨q.a + r.a, q.b + r.b, q.c + r.c, q.d + r.d⟩

structure Square where
  first : Column
  second : Column
  third : Column
  fourth : Column
deriving DecidableEq, Repr

namespace Square

def map (f : Column → Column) (s : Square) : Square := ⟨f s.first, f s.second, f s.third, f s.fourth⟩

def add (s t : Square) : Square :=
  ⟨s.first.add t.first, s.second.add t.second, s.third.add t.third, s.fourth.add t.fourth⟩

def diagonals (s : Square) : Square :=
  ⟨⟨s.first.a, s.second.b, s.third.c, s.fourth.d⟩, ⟨s.second.a, s.third.b, s.fourth.c, s.first.d⟩,
    ⟨s.third.a, s.fourth.b, s.first.c, s.second.d⟩, ⟨s.fourth.a, s.first.b, s.second.c, s.third.d⟩⟩

def ofDiagonals (s : Square) : Square :=
  ⟨⟨s.first.a, s.fourth.b, s.third.c, s.second.d⟩, ⟨s.second.a, s.first.b, s.fourth.c, s.third.d⟩,
    ⟨s.third.a, s.second.b, s.first.c, s.fourth.d⟩, ⟨s.fourth.a, s.third.b, s.second.c, s.first.d⟩⟩

def doubleRound (s : Square) : Square :=
  ((s.map Column.quarterRound).diagonals.map Column.quarterRound).ofDiagonals

def words (s : Square) : List UInt32 :=
  [s.first.a, s.second.a, s.third.a, s.fourth.a, s.first.b, s.second.b, s.third.b, s.fourth.b,
    s.first.c, s.second.c, s.third.c, s.fourth.c, s.first.d, s.second.d, s.third.d, s.fourth.d]

end Square

structure Key where
  upper : Column
  lower : Column
deriving DecidableEq, Repr

/-- The word number `i` of a byte string, low byte first. -/
def wordAt (b : Bytes) (i : Nat) : UInt32 := UInt32.ofNat (Bytes.toNatLE ((b.drop (4 * i)).take 4))

def Key.ofBytes (b : Bytes) : Key :=
  ⟨⟨wordAt b 0, wordAt b 1, wordAt b 2, wordAt b 3⟩, ⟨wordAt b 4, wordAt b 5, wordAt b 6, wordAt b 7⟩⟩

/-- The square of a key and a counter of 64 bits. -/
def initial (k : Key) (counter : UInt64) : Square :=
  ⟨⟨0x61707865, k.upper.a, k.lower.a, counter.toUInt32⟩,
    ⟨0x3320646e, k.upper.b, k.lower.b, (counter >>> 32).toUInt32⟩,
    ⟨0x79622d32, k.upper.c, k.lower.c, 0⟩, ⟨0x6b206574, k.upper.d, k.lower.d, 0⟩⟩

/-- The words of a block: twelve rounds and a final sum. -/
def block (k : Key) (counter : UInt64) : List UInt32 :=
  let s := initial k counter
  (s.doubleRound.doubleRound.doubleRound.doubleRound.doubleRound.doubleRound.add s).words

/-- A generator: the key, the counter of the next block and the words that are left of the last one. -/
structure Generator where
  key : Key
  counter : UInt64
  pending : List UInt32
deriving DecidableEq, Repr

namespace Generator

def ofKey (b : Bytes) : Generator := ⟨.ofBytes b, 0, []⟩

def next (g : Generator) : UInt32 × Generator :=
  match g.pending with
  | w :: ws => (w, { g with pending := ws })
  | [] =>
    let b := block g.key g.counter
    (b.headD 0, { g with counter := g.counter + 1, pending := b.tail })

instance : WordSource Generator := ⟨next⟩

/-- A step of the congruential generator that widens a seed. -/
def seedStep (s : UInt64) : UInt64 := s * 6364136223846793005 + 11634580027462260723

def seedWord (s : UInt64) : UInt32 :=
  let x := (((s >>> 18) ^^^ s) >>> 27).toUInt32
  let n := (s >>> 59).toUInt32
  x >>> n ||| x <<< ((32 - n) % 32)

/-- The first `n` output words for a seed, low byte first. -/
def seedBytes : (n : Nat) → UInt64 → Bytes
  | 0, _ => []
  | n + 1, s => Bytes.ofNatLE 4 (seedWord (seedStep s)).toNat ++ seedBytes n (seedStep s)

def ofSeed (seed : UInt64) : Generator := ofKey (seedBytes 8 seed)

end Generator

end Signet.ChaCha
