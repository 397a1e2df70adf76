/-!
# Arithmetic modulo a number

Differences, powers and inverses of residues, written as natural numbers.
-/

namespace Signet.Modular

def sub (m a b : Nat) : Nat := (a + (m - b % m)) % m

def neg (m a : Nat) : Nat := (m - a % m) % m

/-- The residue of `a ^ e`, by repeated squaring. -/
def pow (m a e : Nat) : Nat :=
  if e = 0 then 1 % m
  else if e % 2 = 1 then pow m (a * a % m) (e / 2) * a % m
  else pow m (a * a % m) (e / 2)
termination_by e
decreasing_by all_goals omega

/-- The inverse of `a`, where `m` is prime and does not divide `a`. -/
def inv (m a : Nat) : Nat := pow m a (m - 2)

/-- A square root of `a`, if it has one, where `m` is a prime that leaves 3 on division by 4. -/
def sqrt? (m a : Nat) : Option Nat :=
  let r := pow m a ((m + 1) / 4)
  if r * r % m = a % m then some r else none

end Signet.Modular
