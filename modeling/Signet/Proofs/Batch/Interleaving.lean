import Signet.Proofs.Batch.Reachable
import Signet.Proofs.Schedule.Draw
import Mathlib.Algebra.BigOperators.Group.List.Basic
import Mathlib.Logic.Relation

/-!
# Concurrent calls

Any number of calls work on one engine, and their steps come in any order. So schedules of one size may be drawn for
several calls before one of them is put into the cache. Only the first one stays, and only its call counts it.
-/

namespace Signet.Engine

/-- What is left to do for a size that was missing, or whether a schedule was added for it. -/
inductive Task where
  | draw (n : Nat)
  | put (s : Schedule)
  | done (added : Bool)

/-- A call, and how far it has come. -/
inductive Call where
  /-- `populate`: the sizes that are left to look at, and those that were missing. -/
  | filtering (sizes missing : List Nat)
  | drawing (tasks : List Task)
  | populated (added : Nat)
  | inserting (s : Schedule)
  | inserted (added : Bool)
  | lookingUp (n : Nat)
  | found (n : Nat) (answer : Option Schedule)
  | verifying (k : Key) (messages signatures : List Bytes)
  | verified (k : Key) (messages signatures : List Bytes) (answer : Except BatchError Unit)

inductive Task.Step (g : Engine) : Task → Engine → Task → Prop
  /-- Drawing does not look at the engine, and its random bytes may be any. -/
  | drawn {n : Nat} {e f : Entropy} {s : Schedule} (h : Schedule.generate n e = .ok (s, f)) :
    Step g (.draw n) g (.put s)
  | failed {n : Nat} {e : Entropy} {err : BatchError} (h : Schedule.generate n e = .error err) :
    Step g (.draw n) g (.done false)
  | put {s : Schedule} : Step g (.put s) (g.insert s) (.done !g.cache.supports s.size)

inductive Call.Step (g : Engine) : Call → Engine → Call → Prop
  | keep {n : Nat} {sizes missing : List Nat} (h : g.cache.supports n = false) :
    Step g (.filtering (n :: sizes) missing) g (.filtering sizes (missing ++ [n]))
  | skip {n : Nat} {sizes missing : List Nat} (h : g.cache.supports n = true) :
    Step g (.filtering (n :: sizes) missing) g (.filtering sizes missing)
  | fork {missing : List Nat} : Step g (.filtering [] missing) g (.drawing (missing.map .draw))
  | task (before after : List Task) {t t' : Task} {g' : Engine} (h : Task.Step g t g' t') :
    Step g (.drawing (before ++ t :: after)) g' (.drawing (before ++ t' :: after))
  | join (flags : List Bool) : Step g (.drawing (flags.map .done)) g (.populated (flags.count true))
  | insert {s : Schedule} : Step g (.inserting s) (g.insert s) (.inserted !g.cache.supports s.size)
  | lookup {n : Nat} : Step g (.lookingUp n) g (.found n (g.cache.lookup n))
  | verify {k : Key} {messages signatures : List Bytes} :
    Step g (.verifying k messages signatures) g (.verified k messages signatures (g.verify k messages signatures))

/-- The calls that have just been made. -/
inductive Call.Begins : Call → Prop
  | populate (ranges : List (Nat × Nat)) :
    Begins (.filtering (ranges.flatMap fun r => List.range' r.1 (r.2 + 1 - r.1)) [])
  | insert (s : Schedule) : Begins (.inserting s)
  | lookup (n : Nat) : Begins (.lookingUp n)
  | verify (k : Key) (messages signatures : List Bytes) : Begins (.verifying k messages signatures)

/-- An engine and the calls that were made on it. -/
structure State where
  engine : Engine
  calls : List Call

/-- A new call is made, or one of the calls takes a step. -/
inductive Step : State → State → Prop
  | begin {g : Engine} {calls : List Call} {c : Call} (h : c.Begins) : Step ⟨g, calls⟩ ⟨g, c :: calls⟩
  | call {g g' : Engine} {c c' : Call} (before after : List Call) (h : c.Step g g' c') :
    Step ⟨g, before ++ c :: after⟩ ⟨g', before ++ c' :: after⟩

def Run : State → State → Prop := Relation.ReflTransGen Step

/-! ## Additions -/

/-- How many schedules a task has added. -/
def Task.added : Task → Nat
  | .done added => added.toNat
  | _ => 0

/-- How many schedules a call has added so far. -/
def Call.added : Call → Nat
  | .drawing tasks => (tasks.map Task.added).sum
  | .populated added => added
  | .inserted added => added.toNat
  | _ => 0

/-- The number of additions that a call reports when it returns. -/
def Call.report? : Call → Option Nat
  | .populated added => some added
  | .inserted added => some added.toNat
  | .found _ _ => some 0
  | .verified _ _ _ _ => some 0
  | _ => none

def State.added (x : State) : Nat := (x.calls.map Call.added).sum

/-- Nothing changes, or a schedule is inserted; `k` is the number of schedules that are new. -/
def Advances (g g' : Engine) (k : Nat) : Prop :=
  (g' = g ∧ k = 0) ∨ ∃ s, g' = g.insert s ∧ k = (!g.cache.supports s.size).toNat

theorem Task.Step.advances {g g' : Engine} {t t' : Task} (h : t.Step g g' t') :
    ∃ k, Advances g g' k ∧ t'.added = t.added + k := by
  cases h with
  | drawn => exact ⟨0, .inl ⟨rfl, rfl⟩, rfl⟩
  | failed => exact ⟨0, .inl ⟨rfl, rfl⟩, rfl⟩
  | put => exact ⟨_, .inr ⟨_, rfl, rfl⟩, (Nat.zero_add _).symm⟩

theorem sum_added_draw (ns : List Nat) : ((ns.map Task.draw).map Task.added).sum = 0 := by
  rw [List.map_map]
  exact List.sum_eq_zero fun k hk => by
    obtain ⟨n, -, rfl⟩ := List.mem_map.mp hk
    rfl

theorem sum_added_done (flags : List Bool) : ((flags.map Task.done).map Task.added).sum = flags.count true := by
  induction flags with
  | nil => rfl
  | cons b flags ih =>
    rw [List.map_cons, List.map_cons, List.sum_cons, ih, List.count_cons, Nat.add_comm]
    cases b <;> rfl

theorem Call.Step.advances {g g' : Engine} {c c' : Call} (h : c.Step g g' c') :
    ∃ k, Advances g g' k ∧ c'.added = c.added + k := by
  cases h with
  | keep => exact ⟨0, .inl ⟨rfl, rfl⟩, rfl⟩
  | skip => exact ⟨0, .inl ⟨rfl, rfl⟩, rfl⟩
  | fork => exact ⟨0, .inl ⟨rfl, rfl⟩, sum_added_draw _⟩
  | task _ _ ht =>
    obtain ⟨k, hk, hadd⟩ := ht.advances
    refine ⟨k, hk, ?_⟩
    simp only [added, List.map_append, List.map_cons, List.sum_append, List.sum_cons, hadd]
    omega
  | join => exact ⟨0, .inl ⟨rfl, rfl⟩, (sum_added_done _).symm⟩
  | insert => exact ⟨_, .inr ⟨_, rfl, rfl⟩, (Nat.zero_add _).symm⟩
  | lookup => exact ⟨0, .inl ⟨rfl, rfl⟩, rfl⟩
  | verify => exact ⟨0, .inl ⟨rfl, rfl⟩, rfl⟩

theorem Call.Begins.added_eq_zero {c : Call} (h : c.Begins) : c.added = 0 := by
  cases h <;> rfl

theorem Step.advances {x y : State} (h : Step x y) : ∃ k, Advances x.engine y.engine k ∧ y.added = x.added + k := by
  cases h with
  | begin hc =>
    refine ⟨0, .inl ⟨rfl, rfl⟩, ?_⟩
    simp only [State.added, List.map_cons, List.sum_cons, hc.added_eq_zero, Nat.zero_add, Nat.add_zero]
  | call before after hc =>
    obtain ⟨k, hk, hadd⟩ := hc.advances
    refine ⟨k, hk, ?_⟩
    simp only [State.added, List.map_append, List.map_cons, List.sum_append, List.sum_cons, hadd]
    omega

theorem Advances.extends {g g' : Engine} {k : Nat} (h : Advances g g' k) (hg : g.cache.Increasing) :
    Cache.Extends g.cache g'.cache ∧ g'.cache.length = g.cache.length + k := by
  rcases h with ⟨rfl, rfl⟩ | ⟨s, rfl, rfl⟩
  · exact ⟨.refl hg, rfl⟩
  · refine ⟨Cache.extends_insert hg s, (Cache.length_insert hg s).trans ?_⟩
    cases g.cache.supports s.size <;> rfl

/-- In the course of a run schedules are only added, and each one is counted once. -/
theorem Run.extends {x y : State} (h : Run x y) (hx : x.engine.cache.Increasing) :
    Cache.Extends x.engine.cache y.engine.cache ∧
      y.engine.cache.length + x.added = x.engine.cache.length + y.added := by
  induction h with
  | refl => exact ⟨.refl hx, rfl⟩
  | tail _ hstep ih =>
    obtain ⟨hext, hlen⟩ := ih
    obtain ⟨k, hk, hadd⟩ := hstep.advances
    obtain ⟨hext', hlen'⟩ := hk.extends hext.increasing
    exact ⟨hext.trans hext', by omega⟩

/-- Concurrent calls make no other engines than calls that are made one after the other. -/
theorem Run.reachable {x y : State} (h : Run x y) (hx : x.engine.Reachable) : y.engine.Reachable := by
  induction h with
  | refl => exact hx
  | tail _ hstep ih =>
    obtain ⟨k, ⟨hsame, -⟩ | ⟨s, hinsert, -⟩, -⟩ := hstep.advances
    · rwa [hsame]
    · rw [hinsert]
      exact ih.insert s

/-! ## Answers -/

/-- With more schedules a batch is decided as before, unless its schedule was missing. -/
theorem verify_of_extends {g g' : Engine} (h : Cache.Extends g.cache g'.cache) {k : Key}
    {messages signatures : List Bytes} (hne : ∀ n, g.verify k messages signatures ≠ .error (.missingArrays n)) :
    g'.verify k messages signatures = g.verify k messages signatures := by
  unfold verify at hne ⊢
  cases hshape : checkShape k messages signatures with
  | error e => rfl
  | ok =>
    cases hentries : BatchEntry.decodeAll Curve.p256 0 signatures with
    | error e => rfl
    | ok entries =>
      cases ha : g.cache.lookup messages.length with
      | none =>
        rw [hshape, hentries, ha] at hne
        exact absurd rfl (hne messages.length)
      | some a =>
        rw [h.lookup ha]

/-- What a call has answered is still the case. -/
def Call.Holds (g : Engine) : Call → Prop
  | .found n (some s) => g.cache.lookup n = some s
  | .verified k messages signatures answer =>
    (∀ n, answer ≠ .error (.missingArrays n)) → g.verify k messages signatures = answer
  | _ => True

theorem Call.Holds.mono {g g' : Engine} {c : Call} (h : c.Holds g) (hext : Cache.Extends g.cache g'.cache) :
    c.Holds g' := by
  cases c with
  | found n answer =>
    cases answer with
    | none => trivial
    | some s => exact hext.lookup h
  | verified k messages signatures answer =>
    intro hne
    have hans := h hne
    rw [verify_of_extends hext (by rwa [hans]), hans]
  | _ => trivial

theorem Call.Begins.holds {g : Engine} {c : Call} (h : c.Begins) : c.Holds g := by
  cases h <;> trivial

theorem Call.Step.holds {g g' : Engine} {c c' : Call} (h : c.Step g g' c') : c'.Holds g' := by
  cases h with
  | @lookup n =>
    cases hn : g.cache.lookup n with
    | none => trivial
    | some s => exact hn
  | verify => exact fun _ => rfl
  | _ => trivial

theorem Step.holds {x y : State} (h : Step x y) (hx : x.engine.cache.Increasing)
    (hc : ∀ c ∈ x.calls, c.Holds x.engine) : ∀ c ∈ y.calls, c.Holds y.engine := by
  obtain ⟨k, hk, -⟩ := h.advances
  have hext := (hk.extends hx).1
  cases h with
  | begin hbegins => exact List.forall_mem_cons.mpr ⟨hbegins.holds, hc⟩
  | call before after hstep =>
    intro c hmem
    rcases List.mem_append.mp hmem with hb | ha
    · exact (hc c (List.mem_append_left _ hb)).mono hext
    · rcases List.mem_cons.mp ha with rfl | ha
      · exact hstep.holds
      · exact (hc c (List.mem_append_right _ (List.mem_cons_of_mem _ ha))).mono hext

theorem Run.holds {x y : State} (h : Run x y) (hx : x.engine.cache.Increasing) (hc : ∀ c ∈ x.calls, c.Holds x.engine) :
    ∀ c ∈ y.calls, c.Holds y.engine := by
  induction h with
  | refl => exact hc
  | tail hrun hstep ih => exact hstep.holds (Run.extends hrun hx).1.increasing ih

/-! ## Calls that are left alone -/

theorem Run.trans {x y z : State} (hxy : Run x y) (hyz : Run y z) : Run x z := Relation.ReflTransGen.trans hxy hyz

theorem Run.begin {g : Engine} {calls : List Call} {c : Call} (h : c.Begins) : Run ⟨g, calls⟩ ⟨g, c :: calls⟩ :=
  .single (.begin h)

theorem Run.call {g g' : Engine} {calls : List Call} {c c' : Call} (h : c.Step g g' c') :
    Run ⟨g, c :: calls⟩ ⟨g', c' :: calls⟩ :=
  .single (.call [] calls h)

theorem run_filtering (g : Engine) (calls : List Call) (sizes missing : List Nat) :
    Run ⟨g, .filtering sizes missing :: calls⟩
      ⟨g, .filtering [] (missing ++ sizes.filter fun n => !g.cache.supports n) :: calls⟩ := by
  induction sizes generalizing missing with
  | nil =>
    rw [List.filter_nil, List.append_nil]
    exact .refl
  | cons n sizes ih =>
    cases hn : g.cache.supports n with
    | true =>
      rw [List.filter_cons_of_neg (by simp [hn])]
      exact (Run.call (.skip hn)).trans (ih missing)
    | false =>
      rw [List.filter_cons_of_pos (by simp [hn]), List.append_cons]
      exact (Run.call (.keep hn)).trans (ih (missing ++ [n]))

/-- The first task that has nothing done yet comes to its end. -/
theorem run_draw (g : Engine) (calls : List Call) (flags : List Bool) (n : Nat) (after : List Task)
    (growth : Cache.Growth) (hg : growth.cache = g.cache) :
    ∃ b : Bool, (growth.draw n).added = growth.added + b.toNat ∧
      Run ⟨g, .drawing (flags.map .done ++ .draw n :: after) :: calls⟩
        ⟨{ g with cache := (growth.draw n).cache }, .drawing (flags.map .done ++ .done b :: after) :: calls⟩ := by
  cases hs : Schedule.generate n growth.entropy with
  | error e =>
    refine ⟨false, ?_, ?_⟩
    · rw [Cache.Growth.draw, hs]
      rfl
    · rw [Cache.Growth.draw, hs, hg]
      exact Run.call (.task _ _ (.failed hs))
  | ok p =>
    obtain ⟨s, f⟩ := p
    refine ⟨!g.cache.supports s.size, ?_, ?_⟩
    · rw [Cache.Growth.draw, hs, ← hg]
      dsimp only
      cases growth.cache.supports s.size <;> rfl
    · rw [Cache.Growth.draw, hs]
      dsimp only
      rw [hg]
      exact (Run.call (.task _ _ (.drawn hs))).trans (Run.call (.task _ _ .put))

theorem run_drawing (g : Engine) (calls : List Call) (flags : List Bool) (ns : List Nat) (growth : Cache.Growth)
    (hg : growth.cache = g.cache) :
    ∃ flags' : List Bool,
      flags'.count true + growth.added = flags.count true + (ns.foldl Cache.Growth.draw growth).added ∧
      Run ⟨g, .drawing (flags.map .done ++ ns.map .draw) :: calls⟩
        ⟨{ g with cache := (ns.foldl Cache.Growth.draw growth).cache }, .drawing (flags'.map .done) :: calls⟩ := by
  induction ns generalizing g flags growth with
  | nil =>
    refine ⟨flags, rfl, ?_⟩
    rw [List.map_nil, List.append_nil, List.foldl_nil, hg]
    exact .refl
  | cons n ns ih =>
    obtain ⟨b, hadd, hrun⟩ := run_draw g calls flags n (ns.map .draw) growth hg
    obtain ⟨flags', hcount, hrest⟩ := ih { g with cache := (growth.draw n).cache } (flags ++ [b]) (growth.draw n) rfl
    refine ⟨flags', ?_, hrun.trans ?_⟩
    · rw [List.count_append, hadd] at hcount
      rw [List.foldl_cons]
      cases b <;> simp at hcount <;> omega
    · rw [List.map_append, List.append_assoc] at hrest
      exact hrest

/-- A call of `populate` whose steps no other call comes between does what `populate` does. -/
theorem run_populate (g : Engine) (calls : List Call) (ranges : List (Nat × Nat)) (e : Entropy) :
    Run ⟨g, calls⟩ ⟨(g.populate ranges e).1, .populated (g.populate ranges e).2.added :: calls⟩ := by
  have hfilter := run_filtering g calls (ranges.flatMap fun r => List.range' r.1 (r.2 + 1 - r.1)) []
  obtain ⟨flags, hcount, hdraw⟩ := run_drawing g calls [] (g.cache.missing ranges) ⟨g.cache, 0, [], e⟩ rfl
  have hadded : (g.populate ranges e).2.added = flags.count true := by
    simpa [populate, Cache.populate] using hcount.symm
  rw [hadded]
  have hmissing := ((Run.begin (.populate ranges)).trans hfilter).trans (Run.call .fork)
  exact hmissing.trans (hdraw.trans (Run.call (.join flags)))

/-! ## Runs -/

theorem Call.added_of_report? {c : Call} {n : Nat} (h : c.report? = some n) : c.added = n := by
  cases c <;> cases h <;> rfl

theorem State.added_of_reports {calls : List Call} {reports : List Nat}
    (h : calls.map Call.report? = reports.map some) : (calls.map Call.added).sum = reports.sum := by
  induction calls generalizing reports with
  | nil =>
    rw [List.map_eq_nil_iff.mp h.symm]
    rfl
  | cons c calls ih =>
    cases reports with
    | nil => cases h
    | cons n reports =>
      obtain ⟨hc, hcalls⟩ := List.cons.inj h
      rw [List.map_cons, List.sum_cons, List.sum_cons, Call.added_of_report? hc, ih hcalls]

/-- Whatever calls are made on an engine and in whatever order they take their steps, a schedule that is cached or was
found stays, the additions that are reported add up to the sizes that are new, and what was decided about a batch stays
decided. -/
theorem Run.write_once {g : Engine} (hg : g.Reachable) {x y : State} (hx : Run ⟨g, []⟩ x) (hy : Run x y) :
    (∀ n s, x.engine.cache.lookup n = some s → y.engine.cache.lookup n = some s) ∧
    (∀ n s, Call.found n (some s) ∈ x.calls → y.engine.cache.lookup n = some s) ∧
    (∀ reports : List Nat, y.calls.map Call.report? = reports.map some →
      reports.sum = (y.engine.cache.sizes.toFinset \ g.cache.sizes.toFinset).card) ∧
    (∀ k messages signatures, (∀ n, x.engine.verify k messages signatures ≠ .error (.missingArrays n)) →
      y.engine.verify k messages signatures = x.engine.verify k messages signatures) ∧
    ∀ k messages signatures answer, Call.verified k messages signatures answer ∈ x.calls →
      (∀ n, answer ≠ .error (.missingArrays n)) → y.engine.verify k messages signatures = answer := by
  have hstart := hx.extends hg.increasing
  have hext := (hy.extends hstart.1.increasing).1
  have hanswers : ∀ c ∈ x.calls, c.Holds y.engine := fun c hc =>
    (hx.holds hg.increasing (List.forall_mem_nil _) c hc).mono hext
  refine ⟨fun n s => hext.lookup, fun n s hc => hanswers _ hc, fun reports hreports => ?_,
    fun k messages signatures => verify_of_extends hext, fun k messages signatures answer hc => hanswers _ hc⟩
  obtain ⟨hall, hlen⟩ := (hx.trans hy).extends hg.increasing
  have hsizes := hall.length_eq hg.increasing
  have hadded : y.added = reports.sum := State.added_of_reports hreports
  have hnone : State.added ⟨g, []⟩ = 0 := rfl
  dsimp only at hlen hsizes
  omega

/-- Two calls of `populate` miss the size 2, both draw a schedule for it, and both put theirs into the cache. -/
theorem Run.write_once_race :
    ∃ early late : Schedule, early ≠ late ∧ early.size = 2 ∧ late.size = 2 ∧ empty.Reachable ∧
      Run ⟨empty, []⟩ ⟨empty.insert early, [.drawing [.put late], .drawing [.done true]]⟩ ∧
      Run ⟨empty.insert early, [.drawing [.put late], .drawing [.done true]]⟩
        ⟨(empty.insert early).insert late, [.populated 0, .populated 1]⟩ ∧
      ((empty.insert early).insert late).cache.lookup 2 = some early ∧
      0 + 1 = (((empty.insert early).insert late).cache.sizes.toFinset \ empty.cache.sizes.toFinset).card := by
  obtain ⟨early, hearly, hearlyParts⟩ :=
    Schedule.Ends.exists_generate (n := 2) (e := List.replicate 32 0) ⟨by decide, by decide +kernel⟩ (by decide)
  obtain ⟨late, hlate, hlateParts⟩ :=
    Schedule.Ends.exists_generate (n := 2) (e := List.replicate 32 1) ⟨by decide, by decide +kernel⟩ (by decide)
  have hearlyBits : some early.bits = some [false, false] :=
    (congrArg (Option.map Prod.fst) hearlyParts).symm.trans (by decide +kernel)
  have hlateBits : some late.bits = some [true, false] :=
    (congrArg (Option.map Prod.fst) hlateParts).symm.trans (by decide +kernel)
  have hearlySize : early.size = 2 := congrArg List.length (Option.some.inj hearlyBits)
  have hlateSize : late.size = 2 := congrArg List.length (Option.some.inj hlateBits)
  have hfound : (empty.insert early).cache.lookup 2 = some early :=
    (Cache.lookup_cons early [] 2).trans (if_pos hearlySize)
  have hfilter : ∀ calls, Run ⟨empty, calls⟩ ⟨empty, .drawing [.draw 2] :: calls⟩ := fun calls =>
    ((Run.begin (.populate [(2, 2)])).trans (Run.call (.keep rfl))).trans (Run.call .fork)
  have hfirst : Run ⟨empty, []⟩ ⟨empty.insert early, [.drawing [.put late], .drawing [.done true]]⟩ := by
    refine (hfilter []).trans ((hfilter _).trans ?_)
    refine (Run.call (.task [] [] (.drawn hlate))).trans ?_
    refine .tail (.single (.call [_] [] (.task [] [] (.drawn hearly)))) ?_
    exact .call [_] [] (.task [] [] .put)
  have hlast : Run ⟨empty.insert early, [.drawing [.put late], .drawing [.done true]]⟩
      ⟨(empty.insert early).insert late, [.populated 0, .populated 1]⟩ := by
    have hput : Task.Step (empty.insert early) (.put late) ((empty.insert early).insert late) (.done false) := by
      have hsupports : (empty.insert early).cache.supports late.size = true := by
        rw [hlateSize, Cache.supports, hfound]
        rfl
      have hstep := Task.Step.put (g := empty.insert early) (s := late)
      rwa [hsupports] at hstep
    refine (Run.call (.task [] [] hput)).trans ?_
    refine (Run.call (.join [false])).trans ?_
    exact .single (.call [_] [] (.join [true]))
  have hne : early ≠ late := by
    rintro rfl
    rw [hearlyBits] at hlateBits
    exact absurd hlateBits (by decide)
  obtain ⟨hkeep, -, hcount, -⟩ := Run.write_once .empty hfirst hlast
  exact ⟨early, late, hne, hearlySize, hlateSize, .empty, hfirst, hlast, hkeep 2 early hfound, hcount [0, 1] rfl⟩

end Signet.Engine
