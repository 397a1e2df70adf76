import Signet.Batch.Error

/-!
# Schedules

A schedule of size `n` turns `n` points into one: a row is doubled before a step whose bit is set, takes in two
points at each step, and is added to the total after the steps of a part and once more at the end. The same
schedule gives each point its coefficient in the total.
-/

namespace Signet

/-- The bits, the second point of each step, and the steps after which the row is added to the total. -/
structure Schedule where
  bits : List Bool
  perm : List Nat
  part : List Nat
  bits_ne_nil : bits ≠ []
  length_perm : perm.length = bits.length
  perm_lt : ∀ j ∈ perm, j < bits.length
  part_lt : ∀ j ∈ part, j < bits.length
deriving DecidableEq

namespace Schedule

def size (s : Schedule) : Nat := s.bits.length

def ofParts (bits : List Bool) (perm part : List Nat) : Except BatchError Schedule :=
  if h₀ : bits = [] then .error (.invalidSize 0)
  else if h₁ : perm.length ≠ bits.length then .error (.sizeMismatch bits.length perm.length)
  else
    match h₂ : (perm ++ part).find? fun j => decide (bits.length ≤ j) with
    | some j => .error (.indexOutOfRange j bits.length)
    | none =>
      have h : ∀ j ∈ perm ++ part, j < bits.length := by
        intro j hj
        have := List.find?_eq_none.mp h₂ j hj
        simpa using this
      .ok ⟨bits, perm, part, h₀, by simpa using h₁, fun j hj => h j (List.mem_append_left _ hj),
        fun j hj => h j (List.mem_append_right _ hj)⟩

/-- Whether the row is added to the total after the step `i`. -/
def isTaken (s : Schedule) (i : Nat) : Bool := s.part.contains i

/-- How many times the total takes in the row after the step `i`. -/
def multiplicity (s : Schedule) (i : Nat) : Nat :=
  (if s.isTaken i then 1 else 0) + if i + 1 = s.size then 1 else 0

/-- The weight that the steps from the first of `rows` on hand down to the steps before them. -/
def carry (rows : List (Bool × Nat)) (weights : List Nat) : Nat :=
  match rows, weights with
  | (b, _) :: _, w :: _ => if b then 2 * w else w
  | _, _ => 0

/-- The weight in the total of what each step takes in, modulo `n`, from the bits and multiplicities of the
steps. -/
def weights (n : Nat) : List (Bool × Nat) → List Nat
  | [] => []
  | (_, m) :: rows =>
    let ws := weights n rows
    (m + carry rows ws) % n :: ws

def rows (s : Schedule) : List (Bool × Nat) := s.bits.zip ((List.range s.size).map s.multiplicity)

/-- The coefficient of each point in the total, modulo `n`. -/
def coefficients (n : Nat) (s : Schedule) : List Nat :=
  let ws := weights n s.rows
  let steps := s.perm.zip ws
  (List.range s.size).zipWith (fun j w => (w + ((steps.filter fun t => t.1 == j).map (·.2)).foldr (· + ·) 0) % n) ws

/-- A row and the total of the rows that were taken. -/
structure Folding where
  row : Point
  total : Point

variable (C : Curve)

/-- A step: whether the row is doubled, the two points that it takes in, and whether it is added to the total. -/
def Folding.step (f : Folding) (double : Bool) (P Q : Point) (taken : Bool) : Folding :=
  let row := C.add (if double then C.add f.row f.row else f.row) (C.add P Q)
  ⟨row, if taken then C.add f.total row else f.total⟩

/-- The state after the steps from `i` on, whose bits and second points are given. -/
def foldSteps (s : Schedule) (points : List Point) : List (Bool × Nat) → (i : Nat) → Folding → Folding
  | [], _, f => f
  | (b, j) :: steps, i, f =>
    foldSteps s points steps (i + 1) (f.step C b (points.getD i .infinity) (points.getD j .infinity) (s.isTaken i))

def fold (s : Schedule) (points : List Point) : Except BatchError Point :=
  if points.length = s.size then
    match s.perm.find? fun j => decide (points.length ≤ j) with
    | some j => .error (.indexOutOfRange j s.size)
    | none =>
      let f := foldSteps C s points (s.bits.zip s.perm) 0 ⟨.infinity, .infinity⟩
      .ok (C.add f.total f.row)
  else .error (.sizeMismatch s.size points.length)

end Schedule

end Signet
