import Signet.Config
import Signet.Proofs.Files
import Signet.Proofs.Json.Fields

/-!
# Saved configurations

Every configuration is read back from its written form. Whether it is then accepted depends on its chunks and ranges alone.
-/

namespace Signet

theorem IdentityConfig.ofJson?_toJson (c : IdentityConfig) : ofJson? c.toJson = some c := by
  rw [ofJson?, toJson, Json.parts?_record (by decide) rfl]
  simp [Suite.ofJson?_toJson, Json.text?]

theorem IdentityConfig.isPlain_toJson (c : IdentityConfig) : c.toJson.IsPlain :=
  Json.isPlain_record fieldNames ⟨.string _, .string _, .string _⟩

namespace BatchConfig

theorem word?_toNat (n : UInt64) : word? (.nat n.toNat) = some n := by
  rw [word?, Json.natBelow?_nat n.toNat_lt_size, Option.map_some, UInt64.ofNat_toNat]

theorem range?_list (r : UInt64 × UInt64) : range? (.list [.nat r.1.toNat, .nat r.2.toNat]) = some r := by
  simp [range?, Json.items?, word?_toNat]

theorem ofJson?_toJson (c : BatchConfig) : ofJson? c.toJson = some c := by
  have hranges : (c.sizeRanges.map fun r => Json.list [.nat r.1.toNat, .nat r.2.toNat]).mapM range? =
      some (c.sizeRanges.map id) :=
    mapM_map_eq_some fun r _ => range?_list r
  rw [ofJson?, toJson, Json.parts?_record (by decide) rfl]
  simp [Json.items?, hranges, word?_toNat]

theorem isPlain_toJson (c : BatchConfig) : c.toJson.IsPlain := by
  refine Json.isPlain_record fieldNames ⟨.list ?_, .nat _⟩
  intro j hj
  obtain ⟨r, -, rfl⟩ := List.mem_map.mp hj
  exact .list (List.forall_iff_forall_mem.mp ⟨.nat _, .nat _⟩)

/-! ## Validation -/

/-- A range of sizes that are not zero, with at least one size. -/
def IsRange (r : UInt64 × UInt64) : Prop := 1 ≤ r.1.toNat ∧ r.1.toNat ≤ r.2.toNat

structure IsValid (c : BatchConfig) : Prop where
  chunkSize : 0 < c.chunkSize.toNat
  ranges : ∀ r ∈ c.sizeRanges, IsRange r

/-- What is wrong with chunks or ranges: the first fault, where the chunks come first. -/
inductive Fault (c : BatchConfig) : ConfigError → Prop where
  | noChunkSize (h : c.chunkSize.toNat = 0) : Fault c .noChunkSize
  | badRange {before after : List (UInt64 × UInt64)} {low high : UInt64} (chunkSize : 0 < c.chunkSize.toNat)
    (ranges : c.sizeRanges = before ++ (low, high) :: after) (good : ∀ r ∈ before, IsRange r)
    (bad : ¬IsRange (low, high)) : Fault c (.badRange low high)

theorem isRange_iff (r : UInt64 × UInt64) : isRange r = true ↔ IsRange r := by
  simp [isRange, IsRange, UInt64.le_iff_toNat_le, ← UInt64.toNat_inj, Nat.one_le_iff_ne_zero]

theorem chunkSize_eq_zero_iff (c : BatchConfig) : c.chunkSize = 0 ↔ c.chunkSize.toNat = 0 := by
  rw [← UInt64.toNat_inj]
  rfl

theorem find?_isRange_eq_none {c : BatchConfig} :
    c.sizeRanges.find? (!isRange ·) = none ↔ ∀ r ∈ c.sizeRanges, IsRange r := by
  simp only [List.find?_eq_none, Bool.not_eq_true', Bool.not_eq_false, isRange_iff]

theorem find?_isRange_eq_some {c : BatchConfig} {r : UInt64 × UInt64} :
    c.sizeRanges.find? (!isRange ·) = some r ↔
      ¬IsRange r ∧ ∃ before after, c.sizeRanges = before ++ r :: after ∧ ∀ q ∈ before, IsRange q := by
  rw [List.find?_eq_some_iff_append]
  simp only [Bool.not_eq_true', Bool.not_not, isRange_iff, ← Bool.not_eq_true]

theorem isValid_or_fault (c : BatchConfig) : c.IsValid ∨ ∃ e, c.Fault e := by
  rcases Nat.eq_zero_or_pos c.chunkSize.toNat with hzero | hpos
  · exact .inr ⟨_, .noChunkSize hzero⟩
  · cases hfind : c.sizeRanges.find? (!isRange ·) with
    | none => exact .inl ⟨hpos, find?_isRange_eq_none.mp hfind⟩
    | some r =>
      obtain ⟨hbad, before, after, hranges, hbefore⟩ := find?_isRange_eq_some.mp hfind
      exact .inr ⟨_, .badRange hpos hranges hbefore hbad⟩

theorem validate_of_isValid {c : BatchConfig} (h : c.IsValid) : c.validate = .ok () := by
  have hne : c.chunkSize ≠ 0 := fun hzero => h.chunkSize.ne' (c.chunkSize_eq_zero_iff.mp hzero)
  rw [validate, if_neg hne, find?_isRange_eq_none.mpr h.ranges]

theorem validate_of_fault {c : BatchConfig} {e : ConfigError} (h : c.Fault e) : c.validate = .error e := by
  cases h with
  | noChunkSize hzero => exact if_pos (c.chunkSize_eq_zero_iff.mpr hzero)
  | @badRange before after low high hpos hranges hbefore hbad =>
    have hne : c.chunkSize ≠ 0 := fun hzero => hpos.ne' (c.chunkSize_eq_zero_iff.mp hzero)
    rw [validate, if_neg hne, find?_isRange_eq_some.mpr ⟨hbad, before, after, hranges, hbefore⟩]

theorem validate_eq_ok {c : BatchConfig} : c.validate = .ok () ↔ c.IsValid := by
  refine ⟨fun h => ?_, validate_of_isValid⟩
  rcases c.isValid_or_fault with hvalid | ⟨e, he⟩
  · exact hvalid
  · rw [validate_of_fault he] at h
    cases h

theorem validate_eq_error {c : BatchConfig} {e : ConfigError} : c.validate = .error e ↔ c.Fault e := by
  refine ⟨fun h => ?_, validate_of_fault⟩
  rcases c.isValid_or_fault with hvalid | ⟨f, hf⟩
  · rw [validate_of_isValid hvalid] at h
    cases h
  · rw [validate_of_fault hf] at h
    cases h
    exact hf

end BatchConfig

namespace NodeConfig

theorem ofJson?_toJson (c : NodeConfig) : ofJson? c.toJson = some c := by
  have hroots : (c.trustedRoots.map fun p => Json.string (some p)).mapM Json.text? = some (c.trustedRoots.map id) :=
    mapM_map_eq_some fun p _ => rfl
  rw [ofJson?, toJson, Json.parts?_record (by decide) rfl]
  simp [IdentityConfig.ofJson?_toJson, Json.withDefault, paths?, Json.items?, hroots, BatchConfig.ofJson?_toJson,
    CipherAlgorithm.ofJson?_toJson]

theorem isPlain_toJson (c : NodeConfig) : c.toJson.IsPlain := by
  refine Json.isPlain_record fieldNames ⟨c.identity.isPlain_toJson, .list ?_, c.batch.isPlain_toJson, .string _⟩
  intro j hj
  obtain ⟨p, -, rfl⟩ := List.mem_map.mp hj
  exact .string p

theorem ofBytes_toBytes (c : NodeConfig) : ofBytes c.toBytes = c.batch.validate.map fun _ => c := by
  have htext : Bytes.toString? c.toBytes = some (c.toJson.toText .indented) := Bytes.toString?_ofString _
  have hjson := Json.ofString?_toText Json.Layout.isBlank_indented c.isPlain_toJson
  simp only [ofBytes, htext, hjson, Option.bind_some, ofJson?_toJson]
  cases c.batch.validate <;> rfl

theorem validate_of_ofBytes {b : Bytes} {c : NodeConfig} (h : ofBytes b = .ok c) : c.batch.validate = .ok () := by
  unfold ofBytes at h
  split at h
  · cases h
  · split at h
    · cases h
    · obtain ⟨⟨⟩, hvalid, hc⟩ := bind_eq_ok.mp h
      cases hc
      exact hvalid

theorem load_ok (b : Bytes) : load (.ok b) = ofBytes b := rfl

/-- A configuration that was saved is loaded again exactly when its chunks and all its ranges hold something, and is refused
for its first fault otherwise; whatever a file holds, no other configuration is loaded from it. -/
theorem load_exact {files files' : Files} {path : String} (c : NodeConfig)
    (hwrite : files.write path c.toBytes = .ok files') :
    (∀ loaded, load (files'.read path) = .ok loaded ↔ c.batch.IsValid ∧ loaded = c) ∧
      (∀ e, load (files'.read path) = .error e ↔ c.batch.Fault e) ∧
      ∀ content loaded, load content = .ok loaded → loaded.batch.IsValid := by
  have hload : load (files'.read path) = c.batch.validate.map fun _ => c := by
    rw [Files.read_of_write hwrite, load_ok, ofBytes_toBytes]
  refine ⟨fun loaded => ?_, fun e => ?_, fun content loaded h => ?_⟩
  · rw [hload, ← BatchConfig.validate_eq_ok]
    cases c.batch.validate <;> simp [Except.map, eq_comm]
  · rw [hload, ← BatchConfig.validate_eq_error]
    cases c.batch.validate <;> simp [Except.map]
  · obtain ⟨b, -, hb⟩ := bind_eq_ok.mp h
    exact BatchConfig.validate_eq_ok.mp (validate_of_ofBytes hb)

/-- The standard configuration, saved where there is no file yet. -/
theorem load_exact_standard :
    ∃ files', Files.write ⟨[]⟩ "node.json" standard.toBytes = .ok files' ∧
      load (files'.read "node.json") = .ok standard := by
  have hwrite : Files.write ⟨[]⟩ "node.json" standard.toBytes = .ok ⟨[(["node.json"], standard.toBytes)]⟩ :=
    Files.write_eq_ok.mpr ⟨["node.json"], by decide, by decide, rfl⟩
  have hvalid : standard.batch.IsValid := BatchConfig.validate_eq_ok.mp (by decide)
  exact ⟨_, hwrite, ((load_exact standard hwrite).1 standard).mpr ⟨hvalid, rfl⟩⟩

end NodeConfig

end Signet
