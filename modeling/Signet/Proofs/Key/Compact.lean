import Signet.Key.Buffer
import Signet.Proofs.Bytes
import Signet.Proofs.Result

/-!
# The compact form of public keys

A string has the compact form if its two lengths fit, and the reader needs no other bytes than those of the form. It
looks at no position behind the end, whatever the lengths say.
-/

namespace Signet.Key

variable {b : Bytes}

/-! ## The compact form -/

/-- A string of two byte strings behind their lengths, where at least one byte follows the second length. -/
structure IsCompact (b X Y rest : Bytes) : Prop where
  eq : b = Bytes.ofNatLE 2 X.length ++ X ++ Bytes.ofNatLE 2 Y.length ++ Y ++ rest
  first : X.length < 256 ^ 2
  second : Y.length < 256 ^ 2
  follows : X.length + 4 < b.length

variable {X Y rest : Bytes}

theorem toNatLE_length {n : Nat} (h : n < 256 ^ 2) : Bytes.toNatLE (Bytes.ofNatLE 2 n) = n := by
  rw [Bytes.toNatLE_ofNatLE, Nat.mod_eq_of_lt h]

theorem IsCompact.bufferPoint_eq (h : IsCompact b X Y rest) :
    bufferPoint b = (do
      let x ← fixedCoordinate .x X
      let y ← fixedCoordinate .y Y
      return 4 :: x ++ y) := by
  have hlength : b.length = X.length + Y.length + 4 + rest.length := by
    rw [h.eq]
    simp only [List.length_append, Bytes.length_ofNatLE]
    omega
  have hxLen : Bytes.toNatLE (b.take 2) = X.length := by
    rw [h.eq]
    simp only [List.append_assoc]
    rw [List.take_left' (Bytes.length_ofNatLE ..), toNatLE_length h.first]
  have hX : (b.drop 2).take X.length = X := by
    rw [h.eq]
    simp only [List.append_assoc]
    rw [List.drop_left' (Bytes.length_ofNatLE ..), List.take_left]
  have hyLen : Bytes.toNatLE ((b.drop (X.length + 2)).take 2) = Y.length := by
    rw [h.eq, List.append_assoc, List.append_assoc, List.drop_left' (by simp; omega),
      List.take_left' (Bytes.length_ofNatLE ..), toNatLE_length h.second]
  have hY : (b.drop (X.length + 4)).take Y.length = Y := by
    rw [h.eq, List.append_assoc, List.drop_left' (by simp; omega), List.take_left]
  have hfollows := h.follows
  simp only [bufferPoint, hxLen, hyLen, hX, hY]
  rw [if_neg (by omega), if_neg (by omega), if_neg (by omega), if_neg (by omega)]

/-- A string that is long enough for its length begins with as many bytes behind it. -/
theorem exists_counted {c : Bytes} {n : Nat} (hn : Bytes.toNatLE (c.take 2) = n) (h : n + 2 ≤ c.length) :
    ∃ X : Bytes, X.length = n ∧ n < 256 ^ 2 ∧ c = Bytes.ofNatLE 2 n ++ X ++ c.drop (n + 2) := by
  have htwo : (c.take 2).length = 2 := List.length_take_of_le (by omega)
  have hwritten := Bytes.ofNatLE_toNatLE (c.take 2)
  have hlt := Bytes.toNatLE_lt (c.take 2)
  rw [htwo, hn] at hwritten hlt
  refine ⟨(c.drop 2).take n, ?_, hlt, ?_⟩
  · rw [List.length_take, List.length_drop]
    omega
  · rw [hwritten, List.append_assoc, Nat.add_comm, ← List.drop_drop, List.take_append_drop, List.take_append_drop]

/-- Every string that passes the checks of the lengths has the compact form. -/
theorem exists_isCompact {p : Bytes} (h : bufferPoint b = .ok p) : ∃ X Y rest, IsCompact b X Y rest := by
  simp only [bufferPoint] at h
  generalize hxLen : Bytes.toNatLE (b.take 2) = xLen at h
  generalize hyLen : Bytes.toNatLE ((b.drop (xLen + 2)).take 2) = yLen at h
  split at h
  · cases h
  · split at h
    · cases h
    · split at h
      · cases h
      · split at h
        · cases h
        · have hdrop : (b.drop (xLen + 2)).length = b.length - (xLen + 2) := List.length_drop
          obtain ⟨X, rfl, hfirst, hb⟩ := exists_counted hxLen (by omega)
          obtain ⟨Y, rfl, hsecond, hc⟩ := exists_counted hyLen (by omega)
          rw [hc, ← List.append_assoc, ← List.append_assoc] at hb
          exact ⟨X, Y, _, hb, hfirst, hsecond, by omega⟩

/-- The compact form goes on with any bytes. -/
theorem IsCompact.append (h : IsCompact b X Y rest) (s : Bytes) : IsCompact (b ++ s) X Y (rest ++ s) where
  eq := by rw [h.eq, List.append_assoc]
  first := h.first
  second := h.second
  follows := by
    have hfollows := h.follows
    rw [List.length_append]
    omega

theorem IsCompact.rest_eq {X' Y' rest' : Bytes} (h : IsCompact b X Y rest) (h' : IsCompact b X' Y' rest') :
    rest = rest' := by
  have heq := h.eq.symm.trans h'.eq
  simp only [List.append_assoc] at heq
  obtain ⟨hxLen, heq⟩ := List.append_inj heq (by simp)
  have hX : X.length = X'.length := by rw [← toNatLE_length h.first, hxLen, toNatLE_length h'.first]
  obtain ⟨-, heq⟩ := List.append_inj heq hX
  obtain ⟨hyLen, heq⟩ := List.append_inj heq (by simp)
  have hY : Y.length = Y'.length := by rw [← toNatLE_length h.second, hyLen, toNatLE_length h'.second]
  exact List.append_inj_right heq hY

/-! ## Coordinates -/

/-- Leading zeros do not count. -/
theorem fixedCoordinate_eq_ok {axis : Axis} {c : Bytes} :
    fixedCoordinate axis b = .ok c ↔ Bytes.toNat b < 256 ^ Curve.coordinateSize ∧
      c = Bytes.ofNat Curve.coordinateSize (Bytes.toNat b) := by
  rw [fixedCoordinate]
  split
  · next hle =>
    have hlt := Bytes.length_stripZeros_le_iff.mp hle
    rw [Bytes.padLeft_stripZeros hlt, Except.ok.injEq, and_iff_right hlt, eq_comm]
  · next hlong => exact ⟨nofun, fun h => absurd (Bytes.length_stripZeros_le_iff.mpr h.1) hlong⟩

theorem fixedCoordinate_of_length {axis : Axis} (h : b.length = Curve.coordinateSize) :
    fixedCoordinate axis b = .ok b :=
  fixedCoordinate_eq_ok.mpr ⟨h ▸ Bytes.toNat_lt b, h ▸ (Bytes.ofNat_toNat b).symm⟩

/-! ## Reading by positions -/

/-- The `n` bytes from the position `i` on, if the string goes that far. -/
def bytesAt? (b : Bytes) (i n : Nat) : Option Bytes := if i + n ≤ b.length then some ((b.drop i).take n) else none

/-- The number that the byte at the position `i` and the next one write, low byte first, if the string has both. -/
def lengthAt? (b : Bytes) (i : Nat) : Option Nat := do
  let low ← b[i]?
  let high ← b[i + 1]?
  return Bytes.toNatLE [low, high]

/-- The bytes from the first one on that is not zero. -/
def significant? (b : Bytes) : Option Bytes :=
  match b.findIdx? (· != 0) with
  | none => some []
  | some start => bytesAt? b start (b.length - start)

def scanCoordinate? (axis : Axis) (b : Bytes) : Option (Except CryptoError Bytes) := do
  let c ← significant? b
  if Curve.coordinateSize < c.length then return .error (.malformedKey (.longCoordinate axis))
  return .ok (Bytes.padLeft Curve.coordinateSize c)

/-- Reads a compact key by positions, in the order in which it needs them. There is no answer where one of them lies
behind the end. -/
def scanBuffer? (b : Bytes) : Option (Except CryptoError Bytes) :=
  if b.length ≤ 2 then some (.error (.malformedKey (.missingLength .x)))
  else do
    let xLen ← lengthAt? b 0
    if b.length < xLen + 2 then return .error (.malformedKey (.missingCoordinate .x))
    if b.length ≤ xLen + 4 then return .error (.malformedKey (.missingLength .y))
    let yLen ← lengthAt? b (xLen + 2)
    if b.length < xLen + yLen + 4 then return .error (.malformedKey (.missingCoordinate .y))
    match ← scanCoordinate? .x (← bytesAt? b 2 xLen) with
    | .error e => return .error e
    | .ok x =>
      let y ← scanCoordinate? .y (← bytesAt? b (xLen + 4) yLen)
      return y.map fun y => 4 :: x ++ y

theorem bytesAt?_of_le {i n : Nat} (h : i + n ≤ b.length) : bytesAt? b i n = some ((b.drop i).take n) := if_pos h

theorem lengthAt?_of_lt {i : Nat} (h : i + 1 < b.length) :
    lengthAt? b i = some (Bytes.toNatLE ((b.drop i).take 2)) := by
  have hi : i < b.length := Nat.lt_of_succ_lt h
  rw [lengthAt?, List.getElem?_eq_getElem hi, List.getElem?_eq_getElem h, List.drop_eq_getElem_cons hi,
    List.drop_eq_getElem_cons h]
  rfl

theorem significant?_eq (b : Bytes) : significant? b = some (Bytes.stripZeros b) := by
  have hdrop : Bytes.stripZeros b = b.drop (b.findIdx (· != 0)) := List.dropWhile_eq_drop_findIdx_not
  rw [significant?]
  split
  · next hnone => rw [hdrop, List.findIdx_eq_length.mpr (List.findIdx?_eq_none_iff.mp hnone), List.drop_length]
  · next start hsome =>
    obtain ⟨hlt, hstart⟩ := List.findIdx?_eq_some_iff_findIdx_eq.mp hsome
    have hle : start + (b.length - start) ≤ b.length := by omega
    rw [bytesAt?_of_le hle, hdrop, hstart, ← List.length_drop, List.take_length]

theorem scanCoordinate?_eq (axis : Axis) (b : Bytes) : scanCoordinate? axis b = some (fixedCoordinate axis b) := by
  rw [scanCoordinate?, significant?_eq, Option.bind_eq_bind, Option.bind_some, fixedCoordinate]
  split
  · next hlong => rw [if_neg (Nat.not_le.mpr hlong), Option.pure_def]
  · next hshort => rw [if_pos (Nat.not_lt.mp hshort), Option.pure_def]

/-- The checks of the lengths come before the reads that rely on them. -/
theorem scanBuffer?_eq (b : Bytes) : scanBuffer? b = some (bufferPoint b) := by
  rw [scanBuffer?, bufferPoint]
  split
  · rfl
  · next h2 =>
    have hxLen := lengthAt?_of_lt (b := b) (i := 0) (by omega)
    rw [List.drop_zero] at hxLen
    rw [hxLen, Option.bind_eq_bind, Option.bind_some]
    generalize Bytes.toNatLE (b.take 2) = xLen
    simp only [Option.bind_eq_bind]
    split
    · rfl
    · split
      · rfl
      · rw [lengthAt?_of_lt (by omega), Option.bind_some]
        generalize Bytes.toNatLE ((b.drop (xLen + 2)).take 2) = yLen
        split
        · rfl
        · have hx := bytesAt?_of_le (b := b) (i := 2) (n := xLen) (by omega)
          have hy := bytesAt?_of_le (b := b) (i := xLen + 4) (n := yLen) (by omega)
          simp only [hx, hy, Option.bind_some, scanCoordinate?_eq]
          cases fixedCoordinate .x ((b.drop 2).take xLen) with
          | error e => rfl
          | ok x =>
            cases fixedCoordinate .y ((b.drop (xLen + 4)).take yLen) with
            | error e => rfl
            | ok y => rfl

end Signet.Key
