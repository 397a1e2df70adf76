import Signet.Batch.Engine
import Signet.Json.Names
import Signet.Json.Reader

/-!
# Configurations of nodes

What a node signs with, whom it trusts, how it prepares for batches and which cipher it uses, with the JSON form of
all that. A configuration that was loaded has chunks of at least one signature and no empty range of sizes.
-/

namespace Signet

structure IdentityConfig where
  algorithm : Suite
  certificatePath : String
  keyPath : String
deriving DecidableEq, Repr

/-- The ranges of batch sizes to prepare, both ends included, and the size of the chunks of large sets. -/
structure BatchConfig where
  sizeRanges : List (UInt64 × UInt64)
  chunkSize : UInt64
deriving DecidableEq, Repr

structure NodeConfig where
  identity : IdentityConfig
  trustedRoots : List String
  batch : BatchConfig
  cipher : CipherAlgorithm
deriving DecidableEq, Repr

inductive ConfigError where
  | file (error : FileError)
  | json
  | noChunkSize
  | badRange (low high : UInt64)
deriving DecidableEq, Repr

def ConfigError.message : ConfigError → String
  | file e => e.message
  | json => "not a configuration"
  | noChunkSize => "batch.chunk_size must be positive"
  | badRange low high => "invalid batch size range [" ++ low.toNat.repr ++ ", " ++ high.toNat.repr ++ "]"

namespace IdentityConfig

def fieldNames : List String := ["algorithm", "cert_path", "key_path"]

def ofJson? (j : Json) : Option IdentityConfig := do
  match ← j.parts? fieldNames with
  | [algorithm, certificatePath, keyPath] =>
    return ⟨← Suite.ofJson? (← algorithm), ← (← certificatePath).text?, ← (← keyPath).text?⟩
  | _ => none

def toJson (c : IdentityConfig) : Json :=
  .record ((fieldNames.map some).zip
    [c.algorithm.toJson, .string (some c.certificatePath), .string (some c.keyPath)])

end IdentityConfig

namespace BatchConfig

def standard : BatchConfig :=
  ⟨Engine.defaultRanges.map fun r => (UInt64.ofNat r.1, UInt64.ofNat r.2), UInt64.ofNat Engine.empty.chunkSize⟩

def fieldNames : List String := ["size_ranges", "chunk_size"]

def word? (j : Json) : Option UInt64 := (j.natBelow? UInt64.size).map UInt64.ofNat

def range? (j : Json) : Option (UInt64 × UInt64) := do
  match ← j.items? with
  | [low, high] => return (← word? low, ← word? high)
  | _ => none

def ofJson? (j : Json) : Option BatchConfig := do
  match ← j.parts? fieldNames with
  | [ranges, chunkSize] => return ⟨← (← (← ranges).items?).mapM range?, ← word? (← chunkSize)⟩
  | _ => none

def toJson (c : BatchConfig) : Json :=
  .record ((fieldNames.map some).zip
    [.list (c.sizeRanges.map fun r => .list [.nat r.1.toNat, .nat r.2.toNat]), .nat c.chunkSize.toNat])

def ranges (c : BatchConfig) : List (Nat × Nat) := c.sizeRanges.map fun r => (r.1.toNat, r.2.toNat)

/-- Whether a range holds a size, and no size that is zero. -/
def isRange (r : UInt64 × UInt64) : Bool := r.1 != 0 && decide (r.1 ≤ r.2)

/-- Refuses chunks of no signature, then the first range without a size. -/
def validate (c : BatchConfig) : Except ConfigError Unit :=
  if c.chunkSize = 0 then .error .noChunkSize
  else
    match c.sizeRanges.find? (!isRange ·) with
    | some (low, high) => .error (.badRange low high)
    | none => .ok ()

end BatchConfig

def pathIn (directory name : String) : String :=
  if directory = "" ∨ directory.endsWith "/" then directory ++ name else directory ++ "/" ++ name

namespace NodeConfig

/-- The configuration of a node that keeps its identity in a directory of its own. -/
def standard : NodeConfig :=
  ⟨⟨.ecdsaP256, "./chainseal-data/node.crt", "./chainseal-data/node.key"⟩, [], .standard, .aes128⟩

def cipherFor : Suite → CipherAlgorithm
  | .ecdsaP256 => .aes128
  | .sm2 => .sm4

def sample (directory : String) (algorithm : Suite) : NodeConfig :=
  ⟨⟨algorithm, pathIn directory "node.crt", pathIn directory "node.key"⟩, [pathIn directory "ca.crt"], .standard,
    cipherFor algorithm⟩

def fieldNames : List String := ["identity", "trusted_roots", "batch", "symmetric_algorithm"]

def paths? (j : Json) : Option (List String) := do (← j.items?).mapM Json.text?

/-- The configuration of a JSON value. Only the identity has to be there. -/
def ofJson? (j : Json) : Option NodeConfig := do
  match ← j.parts? fieldNames with
  | [identity, roots, batch, cipher] =>
    return {
      identity := ← IdentityConfig.ofJson? (← identity)
      trustedRoots := ← Json.withDefault [] paths? roots
      batch := ← Json.withDefault .standard BatchConfig.ofJson? batch
      cipher := ← Json.withDefault .aes128 CipherAlgorithm.ofJson? cipher }
  | _ => none

def toJson (c : NodeConfig) : Json :=
  .record ((fieldNames.map some).zip
    [c.identity.toJson, .list (c.trustedRoots.map fun p => .string (some p)), c.batch.toJson, c.cipher.toJson])

def toBytes (c : NodeConfig) : Bytes := Bytes.ofString (c.toJson.toText .indented)

def ofBytes (b : Bytes) : Except ConfigError NodeConfig :=
  match Bytes.toString? b with
  | none => .error (.file .notText)
  | some s =>
    match (Json.ofString? s).bind ofJson? with
    | none => .error .json
    | some c => do
      c.batch.validate
      return c

def load (content : Except FileError Bytes) : Except ConfigError NodeConfig := do
  ofBytes (← content.mapError .file)

end NodeConfig

end Signet
