import Signet.Certificate.Issue
import Signet.Proofs.Der.Record
import Signet.Proofs.Result

/-!
# Extensions that were written

The contents that issuing writes are read back from an extension, and an extension is found behind ones with other
identifiers.
-/

namespace Signet

namespace Extension

variable {α : Type} {read? : Der.Element → Option α}

theorem find?_ofContent {e : Der.Element} (he : e.Fits) (id : Der.Oid) (critical : Bool) (xs : List Extension) :
    find? id read? (ofContent id critical e :: xs) = read? e := by
  have hfind : (ofContent id critical e :: xs).find? (fun x => x.id == id) = some (ofContent id critical e) :=
    List.find?_cons_of_pos (beq_self_eq_true id)
  have hread : Der.Element.ofBytes? (ofContent id critical e).value = some e := Der.Element.ofBytes?_encode he
  simp only [find?, hfind, hread, Option.bind_eq_bind, Option.bind_some]

theorem find?_cons_of_ne {x : Extension} {id : Der.Oid} (h : x.id ≠ id) (xs : List Extension) :
    find? id read? (x :: xs) = find? id read? xs := by
  rw [find?, List.find?_cons_of_neg (by simpa using h), find?]

theorem find?_ofContent_of_ne {id other : Der.Oid} (h : other ≠ id) (critical : Bool) (e : Der.Element)
    (xs : List Extension) : find? id read? (ofContent other critical e :: xs) = find? id read? xs :=
  find?_cons_of_ne h xs

theorem find?_append_of_forall_ne {id : Der.Oid} {xs : List Extension} (h : ∀ x ∈ xs, x.id ≠ id)
    (ys : List Extension) : find? id read? (xs ++ ys) = find? id read? ys := by
  have hfind : xs.find? (fun x => x.id == id) = none :=
    List.find?_eq_none.mpr fun x hx => by simpa using h x hx
  rw [find?, List.find?_append, hfind, Option.none_or, find?]

theorem find?_eq_none {id : Der.Oid} {xs : List Extension} (h : ∀ x ∈ xs, x.id ≠ id) : find? id read? xs = none := by
  rw [← List.append_nil xs, find?_append_of_forall_ne h]
  rfl

theorem fits_usages {us : List Der.Oid} (h : us.length * 45 ≤ Der.maxLength) : (usages us).Fits := by
  refine Der.Element.fits_sequence (n := 39) (fun e he => ?_) (by rwa [List.length_map])
  obtain ⟨o, -, rfl⟩ := List.mem_map.mp he
  exact ⟨Der.Element.fits_ofOid o, o.length_content_le⟩

theorem usages?_usages (us : List Der.Oid) : usages? (usages us) = some us := by
  have hparts : (usages us).parts? Der.sequenceTag = some (us.map .ofOid) := by
    refine Der.Element.parts?_node fun e he => ?_
    obtain ⟨o, -, rfl⟩ := List.mem_map.mp he
    exact Der.Element.fits_ofOid o
  simp only [usages?, hparts, Option.bind_eq_bind, Option.bind_some]
  rw [mapM_map_eq_some fun o _ => Der.Element.oid?_ofOid o, List.map_id']

end Extension

namespace BasicConstraints

variable (b : BasicConstraints)

def parts : List Der.Element :=
  (if b.ca then [.ofBool true] else []) ++ b.pathLength.toList.map fun n => .ofNat n.toNat

theorem fits_parts {e : Der.Element} (he : e ∈ b.parts) : e.Fits ∧ e.content.length ≤ 33 := by
  rcases List.mem_append.mp he with h | h
  · cases hca : b.ca with
    | false => simp [hca] at h
    | true =>
      obtain rfl : e = .ofBool true := by simpa [hca] using h
      exact ⟨⟨rfl, by decide⟩, by decide⟩
  · obtain ⟨n, -, rfl⟩ := List.mem_map.mp h
    have hn : n.toNat < 2 ^ 256 := n.toNat_lt.trans (by decide)
    exact ⟨Der.Element.fits_ofNat hn, Der.Element.length_natContent_le hn⟩

theorem length_parts_le : b.parts.length ≤ 2 := by
  obtain ⟨ca, length⟩ := b
  cases ca <;> cases length <;> simp [parts]

theorem fits_toElement : b.toElement.Fits := by
  have hparts : ∀ e ∈ b.parts, e.Fits ∧ e.content.length ≤ 33 := fun e he => b.fits_parts he
  have hlen : b.parts.length * (33 + 6) ≤ Der.maxLength := by
    have := b.length_parts_le
    rw [Der.maxLength]
    omega
  exact Der.Element.fits_sequence hparts hlen

theorem pathLength?_ofNat (n : UInt8) : pathLength? (.ofNat n.toNat) = some n := by
  rw [pathLength?, Der.Element.nat?_ofNat]
  simp [n.toNat_lt]

theorem bool?_ofNat (n : Nat) : (Der.Element.ofNat n).bool? = none :=
  if_pos (show Der.integerTag ≠ Der.booleanTag by decide)

/-- The constraints are read back, also where a certificate is not that of an authority and limits its path. -/
theorem ofElement?_toElement : ofElement? b.toElement = some b := by
  have hparts : b.toElement.parts? Der.sequenceTag = some b.parts :=
    Der.Element.parts?_node fun e he => (b.fits_parts he).1
  have htrue : (Der.Element.ofBool true).bool? = some true := by decide
  rw [ofElement?, hparts]
  obtain ⟨ca, length⟩ := b
  cases ca <;> cases length <;> simp [parts, pathLength?_ofNat, bool?_ofNat, htrue]

end BasicConstraints

end Signet
