/-!
# Random words

A source gives one random word of 32 bits after the other. Numbers below a bound are drawn without bias: a word
is multiplied by the bound, and the high half of the product counts unless the low half lies beyond the last full
copy of the range.
-/

namespace Signet

class WordSource (σ : Type) where
  next : σ → UInt32 × σ

namespace WordSource

variable {σ : Type} [WordSource σ]

def word (s : σ) : Nat × σ := ((next s).1.toNat, (next s).2)

/-- The next two words as a number of 64 bits, low word first. -/
def doubleWord (s : σ) : Nat × σ :=
  let lo := next s
  let hi := next lo.2
  (lo.1.toNat + UInt32.size * hi.1.toNat, hi.2)

/-- The high bit of the next word. -/
def bit (s : σ) : Bool × σ := ((next s).1 ≥ 0x80000000, (next s).2)

/-- The largest low half that counts, for numbers of `width` bits and the bound `m`: the bound shifted to the
left as far as it goes, less one. -/
def zone (width m : Nat) : Nat := (m <<< (width - (m.log2 + 1))) - 1

/-- The number below `m` of the first of `tries` draws of `width` bits that counts. -/
def firstBelow? (draw : σ → Nat × σ) (width m : Nat) : (tries : Nat) → σ → Option (Nat × σ)
  | 0, _ => none
  | tries + 1, s =>
    let product := (draw s).1 * m
    if product % (1 <<< width) ≤ zone width m then some (product >>> width, (draw s).2)
    else firstBelow? draw width m tries (draw s).2

/-- The number of words after which a source with a counter of 64 bits and blocks of 16 words starts again. -/
def period : Nat := UInt64.size * 16

def below? (m : Nat) (s : σ) : Option (Nat × σ) := firstBelow? word 32 m period s

def wideBelow? (m : Nat) (s : σ) : Option (Nat × σ) := firstBelow? doubleWord 64 m period s

def bits : (n : Nat) → σ → List Bool × σ
  | 0, s => ([], s)
  | n + 1, s =>
    let b := bit s
    let rest := bits n b.2
    (b.1 :: rest.1, rest.2)

end WordSource

end Signet
