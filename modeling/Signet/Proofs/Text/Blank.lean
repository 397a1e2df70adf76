import Signet.Proofs.Text.Base64
import Signet.Text.Blank

/-!
# Texts without the white space around them
-/

namespace Signet.Text

/-- A text without white space is all that is left of it and the white space around it. -/
theorem trim_append {pre t post : List Char} (hpre : ∀ c ∈ pre, isBlank c = true) (ht : ∀ c ∈ t, isBlank c = false)
    (hpost : ∀ c ∈ post, isBlank c = true) : trim (String.ofList (pre ++ t ++ post)) = String.ofList t := by
  rw [trim, String.toList_ofList, List.append_assoc, List.dropWhile_append_of_pos hpre]
  congr 1
  cases t with
  | nil => simp [List.dropWhile_eq_nil_iff.mpr hpost]
  | cons c t =>
    have hfront : ¬isBlank c = true := by simp [ht c]
    have hpost' : ∀ c ∈ post.reverse, isBlank c = true := fun c hc => hpost c (List.mem_reverse.mp hc)
    rw [List.cons_append, List.dropWhile_cons_of_neg hfront, ← List.cons_append, List.reverse_append,
      List.dropWhile_append_of_pos hpost']
    cases hlast : (c :: t).reverse with
    | nil => simp at hlast
    | cons d u =>
      have hd : d ∈ c :: t := List.mem_reverse.mp (by simp [hlast])
      have hback : ¬isBlank d = true := by simp [ht d hd]
      rw [List.dropWhile_cons_of_neg hback, ← hlast, List.reverse_reverse]

end Signet.Text

namespace Signet.Base64

open Text

theorem isBlank_of_mem_encodeText {b : Bytes} {c : Char} (hc : c ∈ (encodeText b).toList) : isBlank c = false := by
  rw [encodeText, String.toList_ofList] at hc
  obtain ⟨x, hx, rfl⟩ := List.mem_map.mp hc
  exact forall_mem_encode (P := fun x => isBlank (Char.ofNat x.toNat) = false) (by decide) (by decide) b x hx

theorem trim_encodeText (b : Bytes) : trim (encodeText b) = encodeText b := by
  have htrim := trim_append (List.forall_mem_nil _) (fun c hc => isBlank_of_mem_encodeText (b := b) hc)
    (List.forall_mem_nil _)
  simpa using htrim

end Signet.Base64
