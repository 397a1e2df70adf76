import Signet.Batch.Draw

/-!
# Caches of schedules

A cache holds at most one schedule of each size, by increasing size. A size that is cached keeps its schedule.
-/

namespace Signet

abbrev Cache := List Schedule

namespace Cache

def sizes (c : Cache) : List Nat := c.map Schedule.size

def lookup (c : Cache) (n : Nat) : Option Schedule := c.find? fun s => s.size == n

def supports (c : Cache) (n : Nat) : Bool := (c.lookup n).isSome

/-- Puts a schedule in its place, unless its size is cached. -/
def insert (s : Schedule) : Cache → Cache
  | [] => [s]
  | t :: c =>
    if s.size < t.size then s :: t :: c
    else if s.size = t.size then t :: c
    else t :: insert s c

/-- The sizes in the given ranges, both ends included, that are not cached. -/
def missing (c : Cache) (ranges : List (Nat × Nat)) : List Nat :=
  (ranges.flatMap fun r => List.range' r.1 (r.2 + 1 - r.1)).filter fun n => !c.supports n

/-- A cache after new schedules were drawn: how many were added, the sizes for which drawing failed, and the
random bytes that are left. -/
structure Growth where
  cache : Cache
  added : Nat
  failures : List (Nat × BatchError)
  entropy : Entropy

def Growth.draw (g : Growth) (n : Nat) : Growth :=
  match Schedule.generate n g.entropy with
  | .error e => { g with failures := g.failures ++ [(n, e)] }
  | .ok (s, entropy) =>
    { g with
      cache := g.cache.insert s
      added := if g.cache.supports s.size then g.added else g.added + 1
      entropy := entropy }

/-- Draws a schedule for each size in the ranges that is not cached. -/
def populate (c : Cache) (ranges : List (Nat × Nat)) (e : Entropy) : Growth :=
  (c.missing ranges).foldl Growth.draw ⟨c, 0, [], e⟩

end Cache

end Signet
