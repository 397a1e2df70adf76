import Signet.Batch.Cache
import Signet.Batch.Entry

/-!
# Batch verification

Many signatures under one ECDSA key are checked together: the sum of their verification equations, each with the
coefficient that a schedule gives it, has to hold. Large sets are split into chunks.
-/

namespace Signet

/-- A cache of schedules and the size of the chunks of large sets. -/
structure Engine where
  cache : Cache := []
  chunkSize : Nat := 50
  chunkSize_pos : 0 < chunkSize := by decide

namespace Engine

def defaultRanges : List (Nat × Nat) := [(31, 100), (499, 501)]

def empty : Engine := {}

/-- The engine with the given chunk size; 0 counts as 1. -/
def withChunkSize (g : Engine) (n : Nat) : Engine := ⟨g.cache, max n 1, Nat.le_max_right n 1⟩

def insert (g : Engine) (s : Schedule) : Engine := { g with cache := g.cache.insert s }

def populate (g : Engine) (ranges : List (Nat × Nat)) (e : Entropy) : Engine × Cache.Growth :=
  let growth := g.cache.populate ranges e
  ({ g with cache := growth.cache }, growth)

/-- The engine with a schedule for each default size that one can be drawn for. -/
def withDefaults (e : Entropy) : Engine := (empty.populate defaultRanges e).1

/-- Refuses keys of other suites, lists of different lengths and empty lists. -/
def checkShape (k : Key) (messages signatures : List Bytes) : Except BatchError Unit :=
  if k.suite.supportsBatch = false then .error (.unsupportedSuite k.suite)
  else if messages.length ≠ signatures.length then .error (.lengthMismatch messages.length signatures.length)
  else if messages = [] then .error .emptyBatch
  else .ok ()

/-- The sums of the multiples of the base point and of the key in the weighted equations. -/
def combine (C : Curve) (entries : List BatchEntry) (digests coefficients : List Nat) : Nat × Nat :=
  let weights := entries.zipWith (fun e c => e.inverse * c % C.n) coefficients
  ((weights.zipWith (· * ·) digests).foldr (· + ·) 0 % C.n,
    (weights.zipWith (fun w (e : BatchEntry) => w * e.r) entries).foldr (· + ·) 0 % C.n)

/-- Whether the weighted equations of the entries hold together: the combined point is not at infinity and has the
first coordinate of the folded ephemeral points. -/
def holds (s : Schedule) (Q : Point) (entries : List BatchEntry) (digests : List Nat) : Except BatchError Unit :=
  let C := Curve.p256
  let sums := combine C entries digests (s.coefficients C.n)
  let P := C.mulAdd sums.1 sums.2 Q
  if P = .infinity then .error .rejected
  else do
    let R ← s.fold C (entries.map BatchEntry.point)
    if P.x % C.n = R.x % C.n then .ok () else .error .rejected

/-- Checks the written rich signature of every message together, with the schedule for their number. -/
def verify (g : Engine) (k : Key) (messages signatures : List Bytes) : Except BatchError Unit := do
  checkShape k messages signatures
  let entries ← BatchEntry.decodeAll Curve.p256 0 signatures
  match g.cache.lookup messages.length with
  | none => .error (.missingArrays messages.length)
  | some s =>
    if s.size ≠ messages.length then .error (.sizeMismatch s.size messages.length)
    else
      holds s k.point entries (messages.map fun m => digestScalar (HashAlgorithm.sha256.digest m).bytes)

/-- The ranges of the chunks of `total` items: as many chunks as there are full ones, at least one, of which the
last one takes the rest. -/
def chunkRanges (total chunk : Nat) : List (Nat × Nat) :=
  let size := max chunk 1
  let count := total / size
  if total = 0 then []
  else if count = 0 then [(0, total)]
  else (List.range count).map fun i => (i * size, if i + 1 = count then total else (i + 1) * size)

/-- The items from the first position of a range to the one before its end. -/
def slice {α : Type} (r : Nat × Nat) (xs : List α) : List α := (xs.drop r.1).take (r.2 - r.1)

/-- The number of items and of chunks, and the chunks that failed. -/
structure Outcome where
  total : Nat
  chunks : Nat
  failed : List ((Nat × Nat) × BatchError)

def Outcome.allValid (o : Outcome) : Bool := o.failed.isEmpty

def verifyChunk (g : Engine) (k : Key) (messages signatures : List Bytes) (r : Nat × Nat) :
    Option ((Nat × Nat) × BatchError) :=
  match g.verify k (slice r messages) (slice r signatures) with
  | .ok _ => none
  | .error e => some (r, e)

def multiVerify (g : Engine) (k : Key) (messages signatures : List Bytes) : Except BatchError Outcome := do
  checkShape k messages signatures
  let ranges := chunkRanges messages.length g.chunkSize
  return ⟨messages.length, ranges.length, ranges.filterMap (g.verifyChunk k messages signatures)⟩

end Engine

end Signet
