import Signet.Json.Names
import Signet.Proofs.Json.Writing
import Signet.Proofs.Result

/-!
# The parts of written records

A record that is written with one value for each of its names gives these values in order.
-/

namespace Signet

namespace Json

theorem single?_cons_of_ne {name other : String} (h : other ≠ name) (j : Json) (fields : List (Option String × Json)) :
    single? name ((some other, j) :: fields) = single? name fields := by
  have hne : (some other == some name) = false := by simp [h]
  simp only [single?, List.filter_cons, hne, Bool.false_eq_true, if_false]

theorem single?_cons_self {name : String} {fields : List (Option String × Json)} (h : ∀ f ∈ fields, f.1 ≠ some name)
    (j : Json) : single? name ((some name, j) :: fields) = some (some j) := by
  have hrest : (fields.filter fun f => f.1 == some name) = [] := by simpa [List.filter_eq_nil_iff] using h
  simp only [single?, List.filter_cons, beq_self_eq_true, if_true, hrest]

theorem single?_of_mem {names : List String} {values : List Json} (hnames : names.Nodup) {name : String} {j : Json}
    (h : (name, j) ∈ names.zip values) : single? name ((names.map some).zip values) = some (some j) := by
  induction names generalizing values with
  | nil => cases h
  | cons other names ih =>
    obtain ⟨hother, hnames⟩ := List.nodup_cons.mp hnames
    cases values with
    | nil => cases h
    | cons k values =>
      rw [List.zip_cons_cons] at h
      rw [List.map_cons, List.zip_cons_cons]
      rcases List.mem_cons.mp h with h | h
      · cases h
        refine single?_cons_self (fun f hf hname => hother ?_) j
        have hmem : f.1 ∈ names.map some := (List.of_mem_zip hf).1
        simpa [hname] using hmem
      · have hne : other ≠ name := fun heq => hother (heq ▸ (List.of_mem_zip h).1)
        rw [single?_cons_of_ne hne, ih hnames h]

theorem isSome_of_mem_zip {names : List String} {values : List Json} {f : Option String × Json}
    (hf : f ∈ (names.map some).zip values) : f.1.isSome = true := by
  obtain ⟨name, -, hname⟩ := List.mem_map.mp (List.of_mem_zip hf).1
  rw [← hname, Option.isSome_some]

theorem parts?_record {names : List String} {values : List Json} (hnames : names.Nodup)
    (hlength : names.length = values.length) :
    parts? names (.record ((names.map some).zip values)) = some (values.map some) := by
  have hread : ((names.zip values).map Prod.fst).mapM (fun name => single? name ((names.map some).zip values)) =
      some ((names.zip values).map (some ∘ Prod.snd)) :=
    mapM_map_eq_some fun f hf => single?_of_mem hnames hf
  rw [List.map_fst_zip (Nat.le_of_eq hlength), ← List.map_map, List.map_snd_zip (Nat.le_of_eq hlength.symm)] at hread
  rw [parts?, if_pos (List.all_eq_true.mpr fun _ => isSome_of_mem_zip), hread]

theorem isPlain_record (names : List String) {values : List Json} (h : values.Forall IsPlain) :
    IsPlain (.record ((names.map some).zip values)) := by
  rw [List.forall_iff_forall_mem] at h
  exact .record (fun _ => isSome_of_mem_zip) fun f hf => h f.2 (List.of_mem_zip hf).2

theorem natBelow?_nat {limit n : Nat} (h : n < limit) : natBelow? limit (.nat n) = some n := if_pos h

end Json

theorem Suite.ofJson?_toJson (s : Suite) : Suite.ofJson? s.toJson = some s := by
  cases s <;> rfl

theorem CipherAlgorithm.ofJson?_toJson (a : CipherAlgorithm) : CipherAlgorithm.ofJson? a.toJson = some a := by
  cases a <;> rfl

end Signet
