import Signet.Signature
import Signet.Proofs.Der.Grammar

/-!
# Reading and writing signatures

Every signature is read back from its written form, and nothing else is read: the written forms are the sequences of two
or of four integers in strict DER that take at most 32 bytes each.
-/

namespace Signet

theorem Word256.val_ofNat_of_lt {v : Nat} (h : v < Word256.size) : (Word256.ofNat v).val = v := Nat.mod_eq_of_lt h

namespace Signature

theorem word_val (w : Word256) : word w.val = .ok w := by
  rw [word, dif_pos w.isLt]

theorem word_eq_ok {n : Nat} {w : Word256} (h : word n = .ok w) : n = w.val := by
  unfold word at h
  split at h
  · cases h
    rfl
  · cases h

/-- A rich signature is a sequence of four integers that take at most 32 bytes. -/
theorem ofRichDer_eq_ok {b : Bytes} {g : Signature} :
    ofRichDer b = .ok g ↔
      ∃ r s x y : Word256, g = ⟨r, s, some (x, y)⟩ ∧ integers? b = some [r.val, s.val, x.val, y.val] := by
  constructor
  · intro h
    unfold ofRichDer at h
    split at h
    · next r s x y hi =>
      simp only [bind_eq_ok, pure_eq_ok] at h
      obtain ⟨r', hr, s', hs, x', hx, y', hy, h⟩ := h
      rw [word_eq_ok hr, word_eq_ok hs, word_eq_ok hx, word_eq_ok hy] at hi
      exact ⟨r', s', x', y', h.symm, hi⟩
    · cases h
  · rintro ⟨r, s, x, y, rfl, hi⟩
    simp only [ofRichDer, hi, word_val]
    rfl

theorem word_eq_error {n : Nat} {e : CryptoError} (h : word n = .error e) :
    ∃ f, e = .malformedSignature f := by
  unfold word at h
  split at h
  · cases h
  · cases h
    exact ⟨_, rfl⟩

/-- What is no rich signature is malformed. -/
theorem ofRichDer_cases (b : Bytes) :
    (∃ r s x y, ofRichDer b = .ok ⟨r, s, some (x, y)⟩) ∨ ∃ f, ofRichDer b = .error (.malformedSignature f) := by
  cases h : ofRichDer b with
  | ok g =>
    obtain ⟨r, s, x, y, rfl, -⟩ := ofRichDer_eq_ok.mp h
    exact .inl ⟨r, s, x, y, rfl⟩
  | error e =>
    have hfault : ∃ f, e = .malformedSignature f := by
      unfold ofRichDer at h
      split at h
      · simp only [bind_eq_error] at h
        rcases h with h | ⟨_, -, h | ⟨_, -, h | ⟨_, -, h | ⟨_, -, h⟩⟩⟩⟩
        · exact word_eq_error h
        · exact word_eq_error h
        · exact word_eq_error h
        · exact word_eq_error h
        · cases h
      · cases h
        exact ⟨_, rfl⟩
    obtain ⟨f, rfl⟩ := hfault
    exact .inr ⟨f, rfl⟩

/-- What is read as a rich signature is read as the same signature where both forms are allowed. -/
theorem ofDer_of_ofRichDer {b : Bytes} {g : Signature} (h : ofRichDer b = .ok g) : ofDer b = .ok g := by
  obtain ⟨r, s, x, y, -, hi⟩ := ofRichDer_eq_ok.mp h
  rw [← h]
  simp only [ofDer, hi]

theorem fits_ofNat (w : Word256) : (Der.Element.ofNat w.val).Fits := Der.Element.fits_ofNat w.isLt

theorem fits_sequence (ws : List Word256) (h : ws.length ≤ 4) :
    (Der.Element.sequence (ws.map fun w => .ofNat w.val)).Fits := by
  have hwords : ∀ e ∈ ws.map fun w => Der.Element.ofNat w.val, e.Fits ∧ e.content.length ≤ 33 := by
    intro e he
    obtain ⟨w, -, rfl⟩ := List.mem_map.mp he
    exact ⟨fits_ofNat w, Der.Element.length_natContent_le w.isLt⟩
  refine Der.Element.fits_sequence hwords ?_
  rw [List.length_map, Der.maxLength]
  omega

theorem integers?_sequence (ws : List Word256) (h : ws.length ≤ 4) :
    integers? (Der.Element.sequence (ws.map fun w => .ofNat w.val)).encode = some (ws.map Fin.val) := by
  have hparts : (Der.Element.sequence (ws.map fun w => .ofNat w.val)).parts? Der.sequenceTag
      = some (ws.map fun w => .ofNat w.val) := by
    refine Der.Element.parts?_node fun e he => ?_
    obtain ⟨w, -, rfl⟩ := List.mem_map.mp he
    exact fits_ofNat w
  have hread : ∀ w : Word256, (Der.Element.ofNat w.val).nat? = some w.val := fun w => Der.Element.nat?_ofNat w.val
  simp only [integers?, Der.Element.ofBytes?_encode (fits_sequence ws h), hparts, Option.bind_eq_bind,
    Option.bind_some, mapM_map_eq_some fun w _ => hread w]

theorem ofRichDer_toDer (r s x y : Word256) :
    ofRichDer (toDer ⟨r, s, some (x, y)⟩) = .ok ⟨r, s, some (x, y)⟩ :=
  ofRichDer_eq_ok.mpr ⟨r, s, x, y, rfl, integers?_sequence [r, s, x, y] (le_refl 4)⟩

/-- A signature of either form is read back from its written form. -/
theorem ofDer_toDer (g : Signature) : ofDer g.toDer = .ok g := by
  obtain ⟨r, s, _ | ⟨x, y⟩⟩ := g
  · have hi : integers? (toDer ⟨r, s, none⟩) = some [r.val, s.val] := integers?_sequence [r, s] (by simp)
    simp only [ofDer, hi, word_val]
    rfl
  · exact ofDer_of_ofRichDer (ofRichDer_toDer r s x y)

/-! ## Written forms -/

/-- The numbers of a signature in the order in which they are written. -/
def numbers (g : Signature) : List Nat :=
  match g.point with
  | none => [g.r.val, g.s.val]
  | some (x, y) => [g.r.val, g.s.val, x.val, y.val]

theorem toDer_eq (g : Signature) : g.toDer = (Der.Element.sequence (g.numbers.map .ofNat)).encode := by
  obtain ⟨r, s, _ | ⟨x, y⟩⟩ := g
  · rfl
  · rfl

theorem length_numbers (g : Signature) : g.numbers.length = 2 ∨ g.numbers.length = 4 := by
  obtain ⟨r, s, _ | ⟨x, y⟩⟩ := g
  · exact .inl rfl
  · exact .inr rfl

theorem numbers_lt (g : Signature) : ∀ n ∈ g.numbers, n < 2 ^ 256 := by
  obtain ⟨r, s, _ | ⟨x, y⟩⟩ := g
  · simp [numbers]
  · simp [numbers]

theorem exists_numbers_eq {ns : List Nat} (hlength : ns.length = 2 ∨ ns.length = 4) (hns : ∀ n ∈ ns, n < 2 ^ 256) :
    ∃ g : Signature, g.numbers = ns := by
  match ns, hlength with
  | [r, s], _ =>
    simp only [List.forall_mem_cons] at hns
    exact ⟨⟨⟨r, hns.1⟩, ⟨s, hns.2.1⟩, none⟩, rfl⟩
  | [r, s, x, y], _ =>
    simp only [List.forall_mem_cons] at hns
    exact ⟨⟨⟨r, hns.1⟩, ⟨s, hns.2.1⟩, some (⟨x, hns.2.2.1⟩, ⟨y, hns.2.2.2.1⟩)⟩, rfl⟩

theorem encode_of_integers? {b : Bytes} {ns : List Nat} (h : integers? b = some ns) :
    b = (Der.Element.sequence (ns.map .ofNat)).encode := by
  simp only [integers?, Option.bind_eq_bind, Option.bind_eq_some_iff] at h
  obtain ⟨e, he, parts, hparts, hns⟩ := h
  obtain ⟨-, rfl⟩ := Der.Element.ofBytes?_eq_some.mp he
  obtain ⟨-, rfl⟩ := Der.Element.parts?_eq_some.mp hparts
  rw [(mapM_eq_some Der.Element.nat?_eq_some).mp hns, Der.Element.sequence]

theorem integers?_of_ofDer {b : Bytes} {g : Signature} (h : ofDer b = .ok g) : integers? b = some g.numbers := by
  unfold ofDer at h
  split at h
  · next r s hi =>
    simp only [bind_eq_ok, pure_eq_ok] at h
    obtain ⟨r', hr, s', hs, rfl⟩ := h
    rw [hi, word_eq_ok hr, word_eq_ok hs, numbers]
  · obtain ⟨r, s, x, y, rfl, hi⟩ := ofRichDer_eq_ok.mp h
    exact hi

/-- A byte string is read as the signature whose written form it is. -/
theorem ofDer_eq_ok {b : Bytes} {g : Signature} : ofDer b = .ok g ↔ g.toDer = b := by
  constructor
  · intro h
    rw [toDer_eq, ← encode_of_integers? (integers?_of_ofDer h)]
  · rintro rfl
    exact ofDer_toDer g

theorem ofRichDer_toDer_eq_ok {g h : Signature} : ofRichDer g.toDer = .ok h ↔ g.point.isSome = true ∧ h = g := by
  constructor
  · intro hread
    have hboth : ofDer g.toDer = .ok h := ofDer_of_ofRichDer hread
    rw [ofDer_toDer, Except.ok.injEq] at hboth
    obtain ⟨r, s, x, y, rfl, -⟩ := ofRichDer_eq_ok.mp hread
    exact ⟨by rw [hboth]; rfl, hboth.symm⟩
  · rintro ⟨hrich, rfl⟩
    obtain ⟨r, s, _ | ⟨x, y⟩⟩ := h
    · cases hrich
    · exact ofRichDer_toDer r s x y

theorem toDer_iff {b : Bytes} {ns : List Nat} :
    (∃ g : Signature, g.numbers = ns ∧ g.toDer = b) ↔
      (ns.length = 2 ∨ ns.length = 4) ∧ (∀ n ∈ ns, n < 2 ^ 256) ∧ Der.IsNaturalSequence ns b := by
  have hfew : ns.length = 2 ∨ ns.length = 4 → ns.length ≤ 4 := by omega
  constructor
  · rintro ⟨g, rfl, rfl⟩
    exact ⟨g.length_numbers, g.numbers_lt,
      (Der.isNaturalSequence_iff g.numbers_lt (hfew g.length_numbers)).mpr g.toDer_eq⟩
  · rintro ⟨hlength, hns, hb⟩
    obtain ⟨g, rfl⟩ := exists_numbers_eq hlength hns
    exact ⟨g, rfl, g.toDer_eq.trans ((Der.isNaturalSequence_iff hns (hfew hlength)).mp hb).symm⟩

/-- Writing and reading are inverse to each other between the signatures and the sequences of two or four integers that
take at most 32 bytes; read as rich ones are those of four. -/
theorem der_exact :
    (∀ g : Signature, ofDer g.toDer = .ok g ∧
      ∀ h, ofRichDer g.toDer = .ok h ↔ g.point.isSome = true ∧ h = g) ∧
    ∀ b : Bytes,
      ((∃ g, ofDer b = .ok g) ↔ ∃ ns : List Nat, (ns.length = 2 ∨ ns.length = 4) ∧ (∀ n ∈ ns, n < 2 ^ 256) ∧
        Der.IsNaturalSequence ns b) ∧
      ∀ g, ofDer b = .ok g ↔ g.toDer = b := by
  refine ⟨fun g => ⟨ofDer_toDer g, fun h => ofRichDer_toDer_eq_ok⟩, fun b => ⟨⟨?_, ?_⟩, fun g => ofDer_eq_ok⟩⟩
  · rintro ⟨g, hg⟩
    exact ⟨g.numbers, toDer_iff.mp ⟨g, rfl, ofDer_eq_ok.mp hg⟩⟩
  · rintro ⟨ns, hns⟩
    obtain ⟨g, -, hg⟩ := toDer_iff.mpr hns
    exact ⟨g, ofDer_eq_ok.mpr hg⟩

end Signature

end Signet
