import Signet.Batch.Schedule
import Signet.Random.ChaCha
import Signet.Random.Entropy

/-!
# Random schedules

A schedule of a given size is drawn from a word source: random bits, a shuffled permutation, and a random set of
10 to 30 steps, or of all steps when there are fewer.
-/

namespace Signet.Schedule

open WordSource

variable {σ : Type} [WordSource σ]

def minPart : Nat := 10

def maxPart : Nat := 30

/-- Swaps each of the positions from `i` down to 1 with a random one that is not behind it. -/
def shuffle? : (i : Nat) → Array Nat → σ → Option (Array Nat × σ)
  | 0, a, s => some (a, s)
  | i + 1, a, s =>
    match below? (i + 2) s with
    | none => none
    | some (j, s) => shuffle? i (a.swapIfInBounds (i + 1) j) s

/-- Swaps each of the `count` positions from `i` on with a random one that is not in front of it. -/
def shuffleFront? : (count i : Nat) → Array Nat → σ → Option (Array Nat × σ)
  | 0, _, a, s => some (a, s)
  | count + 1, i, a, s =>
    match below? (a.size - i) s with
    | none => none
    | some (j, s) => shuffleFront? count (i + 1) (a.swapIfInBounds i (i + j)) s

/-- Puts a random number up to `j` into the set `chosen` for each `j` of `js`, or `j` itself if that number is
in it. -/
def choose? : (js chosen : List Nat) → σ → Option (List Nat × σ)
  | [], chosen, s => some (chosen, s)
  | j :: js, chosen, s =>
    match below? (j + 1) s with
    | none => none
    | some (t, s) => choose? js ((if chosen.contains t then j else t) :: chosen) s

/-- Whether a sample of `count` numbers below `n` is taken from the front of a shuffled row. -/
def samplesFront (n count : Nat) : Bool := 11 < count && 5 * n < (50 + 8 * count) * count

/-- `count` different numbers below `n`, in some order. -/
def sample? (n count : Nat) (s : σ) : Option (List Nat × σ) :=
  if samplesFront n count then
    (shuffleFront? count 0 (Array.range n) s).map fun (a, s) => (a.toList.take count, s)
  else choose? (List.range' (n - count) count) [] s

def drawParts? (n : Nat) (s : σ) : Option (List Bool × List Nat × List Nat) := do
  let (bits, s) := WordSource.bits n s
  let (perm, s) ← shuffle? (n - 1) (Array.range n) s
  let (extra, s) ← wideBelow? (maxPart - minPart + 1) s
  let (part, _) ← sample? n (min (minPart + extra) n) s
  return (bits, perm.toList, part.mergeSort)

def ofWords (n : Nat) (s : σ) : Except BatchError Schedule :=
  if n = 0 then .error (.invalidSize 0)
  else
    match drawParts? n s with
    | none => .error .rng
    | some (bits, perm, part) => ofParts bits perm part

def generate (n : Nat) (e : Entropy) : Except BatchError (Schedule × Entropy) :=
  match e.draw? 32 with
  | none => .error .rng
  | some (key, e) => (ofWords n (ChaCha.Generator.ofKey key)).map fun s => (s, e)

end Signet.Schedule
