import Signet.Bytes

/-!
# Entropy

Random bytes are drawn from the front of a given stream. A draw that is longer than the stream fails and takes
nothing.
-/

namespace Signet

abbrev Entropy := Bytes

namespace Entropy

def draw? (n : Nat) (e : Entropy) : Option (Bytes × Entropy) :=
  if n ≤ e.length then some (e.take n, e.drop n) else none

theorem draw?_eq_some {n : Nat} {e f : Entropy} {b : Bytes} (h : e.draw? n = some (b, f)) :
    b.length = n ∧ e = b ++ f := by
  unfold draw? at h
  split at h
  · simp only [Option.some.injEq, Prod.mk.injEq] at h
    rw [← h.1, ← h.2, List.length_take, List.take_append_drop]
    exact ⟨by omega, rfl⟩
  · simp at h

/-- A number between 1 and `n - 1`: 32 bytes are drawn again until they write such a number. -/
def drawScalar? (n : Nat) (e : Entropy) : Option (Nat × Entropy) :=
  match _h : e.draw? 32 with
  | none => none
  | some (b, f) => if 1 ≤ Bytes.toNat b ∧ Bytes.toNat b < n then some (Bytes.toNat b, f) else drawScalar? n f
termination_by e.length
decreasing_by
  obtain ⟨hb, he⟩ := draw?_eq_some ‹e.draw? 32 = some (b, f)›
  rw [he, List.length_append]
  omega

theorem length_lt_of_drawScalar? {n k : Nat} {e f : Entropy} (h : e.drawScalar? n = some (k, f)) :
    f.length < e.length := by
  fun_induction drawScalar? n e with
  | case1 => simp at h
  | case2 e b g hd hk =>
    obtain ⟨hb, he⟩ := draw?_eq_some hd
    simp only [Option.some.injEq, Prod.mk.injEq] at h
    rw [he, ← h.2, List.length_append]
    omega
  | case3 e b g hd hk ih =>
    obtain ⟨hb, he⟩ := draw?_eq_some hd
    have := ih h
    rw [he, List.length_append]
    omega

end Entropy

end Signet
