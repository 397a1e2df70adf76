/-!
# Byte strings

Byte strings are lists of bytes. This module holds their readings as numbers in both byte orders and
as UTF-8 text.
-/

namespace Signet

abbrev Bytes := List UInt8

namespace Bytes

/-- The `len` low bytes of `n`, least significant first. -/
def ofNatLE : (len n : Nat) → Bytes
  | 0, _ => []
  | len + 1, n => UInt8.ofNat n :: ofNatLE len (n / 256)

def toNatLE : Bytes → Nat
  | [] => 0
  | x :: b => x.toNat + 256 * toNatLE b

/-- The `len` low bytes of `n`, most significant first. -/
def ofNat (len n : Nat) : Bytes := (ofNatLE len n).reverse

def toNat (b : Bytes) : Nat := b.foldl (fun n x => n * 256 + x.toNat) 0

def stripZeros (b : Bytes) : Bytes := b.dropWhile (· == 0)

/-- `b` with zeros in front of it up to the length `len`. -/
def padLeft (len : Nat) (b : Bytes) : Bytes := List.replicate (len - b.length) 0 ++ b

def ofString (s : String) : Bytes := s.toUTF8.data.toList

def toString? (b : Bytes) : Option String := String.fromUTF8? ⟨b.toArray⟩

@[simp] theorem length_ofNatLE (len n : Nat) : (ofNatLE len n).length = len := by
  induction len generalizing n with
  | zero => rfl
  | succ len ih => simp [ofNatLE, ih]

@[simp] theorem length_ofNat (len n : Nat) : (ofNat len n).length = len := by
  simp [ofNat]

end Bytes

end Signet
