import Signet.Proofs.Der.Element
import Signet.Proofs.Result

/-!
# What is read has one written form

A reader of elements accepts nothing but what writing produces: the bytes that it takes are the written form of the
element that it finds.
-/

namespace Signet.Der

theorem length?_eq_some {b c : Bytes} {n : Nat} : length? b = some (n, c) ↔ n ≤ maxLength ∧ b = encodeLength n ++ c := by
  constructor
  · intro h
    unfold length? at h
    split at h
    · cases h
    · next x b =>
      split at h
      · next hx =>
        cases h
        have hlt : x.toNat < 128 := hx
        refine ⟨by rw [maxLength]; omega, ?_⟩
        rw [encodeLength, if_pos hlt, UInt8.ofNat_toNat, List.singleton_append]
      · simp only [Option.ite_none_right_eq_some, Option.some.injEq, Prod.mk.injEq] at h
        obtain ⟨⟨-, hmax, henc⟩, rfl, rfl⟩ := h
        exact ⟨hmax, by rw [henc, List.cons_append, List.take_append_drop]⟩
  · rintro ⟨hmax, rfl⟩
    exact length?_encodeLength hmax c

theorem element?_eq_some {b c : Bytes} {e : Element} : element? b = some (e, c) ↔ e.Fits ∧ b = e.encode ++ c := by
  constructor
  · intro h
    unfold element? at h
    split at h
    · cases h
    · next t b =>
      split at h
      · next hknown =>
        split at h
        · cases h
        · next n d hlength =>
          simp only [Option.ite_none_right_eq_some, Option.some.injEq, Prod.mk.injEq] at h
          obtain ⟨hle, rfl, rfl⟩ := h
          obtain ⟨hmax, rfl⟩ := length?_eq_some.mp hlength
          have htake : (d.take n).length = n := List.length_take_of_le hle
          refine ⟨⟨hknown, by rw [htake]; exact hmax⟩, ?_⟩
          rw [Element.encode, htake, List.append_assoc, List.take_append_drop, List.cons_append]
      · cases h
  · rintro ⟨hfits, rfl⟩
    exact element?_encode hfits c

theorem elements?_eq_some {b : Bytes} {es : List Element} :
    elements? b = some es ↔ (∀ e ∈ es, e.Fits) ∧ b = encodeAll es := by
  constructor
  · intro h
    fun_induction elements? b generalizing es with
    | case1 =>
      cases h
      exact ⟨by simp, rfl⟩
    | case2 => cases h
    | case3 b hne e c hel ih =>
      obtain ⟨rest, hrest, rfl⟩ := Option.map_eq_some_iff.mp h
      obtain ⟨hfits, rfl⟩ := ih hrest
      obtain ⟨he, rfl⟩ := element?_eq_some.mp hel
      exact ⟨List.forall_mem_cons.mpr ⟨he, hfits⟩, rfl⟩
  · rintro ⟨hfits, rfl⟩
    exact elements?_encodeAll hfits

namespace Element

theorem ofBytes?_eq_some {b : Bytes} {e : Element} : ofBytes? b = some e ↔ e.Fits ∧ b = e.encode := by
  constructor
  · intro h
    unfold ofBytes? at h
    split at h
    · next hel =>
      cases h
      rw [← List.append_nil e.encode]
      exact element?_eq_some.mp hel
    · cases h
  · rintro ⟨hfits, rfl⟩
    exact ofBytes?_encode hfits

theorem content?_eq_some {t : UInt8} {e : Element} {b : Bytes} : e.content? t = some b ↔ e = ⟨t, b⟩ := by
  obtain ⟨tag, content⟩ := e
  simp only [content?, Option.ite_none_right_eq_some, Option.some.injEq, mk.injEq]

theorem parts?_eq_some {t : UInt8} {e : Element} {es : List Element} :
    e.parts? t = some es ↔ (∀ p ∈ es, p.Fits) ∧ e = node t es := by
  rw [parts?, Option.bind_eq_some_iff]
  constructor
  · rintro ⟨b, hb, hes⟩
    obtain ⟨hfits, rfl⟩ := elements?_eq_some.mp hes
    exact ⟨hfits, content?_eq_some.mp hb⟩
  · rintro ⟨hfits, rfl⟩
    exact ⟨encodeAll es, content?_eq_some.mpr rfl, elements?_encodeAll hfits⟩

end Element

theorem natOfContent?_eq_some {b : Bytes} {n : Nat} : natOfContent? b = some n ↔ b = natContent n := by
  constructor
  · intro h
    simp only [natOfContent?, Option.ite_none_right_eq_some, Option.some.injEq] at h
    rw [← h.2, h.1]
  · rintro rfl
    exact natOfContent?_natContent n

theorem Element.nat?_eq_some {e : Element} {n : Nat} : e.nat? = some n ↔ e = ofNat n := by
  rw [nat?, Option.bind_eq_some_iff]
  constructor
  · rintro ⟨b, hb, hn⟩
    rw [content?_eq_some.mp hb, natOfContent?_eq_some.mp hn, ofNat]
  · rintro rfl
    exact ⟨natContent n, content?_eq_some.mpr rfl, natOfContent?_natContent n⟩

end Signet.Der
