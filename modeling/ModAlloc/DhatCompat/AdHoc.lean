import ModAlloc.Lib.Observer
import ModAlloc.DhatCompat.AdHocWriter

/-!
# Ad-hoc events from many threads

`ad_hoc_event` adds to two counters, one after the other, and `AdHocStats::get` loads
them one after the other, so that statistics taken while events are reported may have an
event without its units, or units without their event. What they have lies between the
events that had been reported before and those that had been begun after, and the same
holds of the document that is written from them (`adHocStats_between`).
-/

namespace ModAlloc

namespace DhatCompat

open Interleaving Interleaving.Program DhatJson Json

/-! ## The counters -/

/-- The statics `AD_HOC_EVENTS` and `AD_HOC_UNITS`. -/
structure AdHocCounters where
  events : U64
  units : U64
deriving DecidableEq, Repr

inductive AdHocPc where
  | addEvents
  | addUnits
  | returned
deriving DecidableEq, Repr

/-- A call of `ad_hoc_event(weight)` in progress. -/
structure AdHocCall where
  weight : U64
  pc : AdHocPc
deriving DecidableEq, Repr

/-- One atomic step of `ad_hoc_event`. -/
def AdHocCall.step (w : AdHocCounters) (c : AdHocCall) : Option (AdHocCounters × AdHocCall) :=
  match c.pc with
  | .addEvents => some ({ w with events := w.events + 1 }, { c with pc := .addUnits })
  | .addUnits => some ({ w with units := w.units + c.weight }, { c with pc := .returned })
  | .returned => none

/-- Any number of `ad_hoc_event` calls on any threads. -/
def adHocProgram : Program AdHocCounters AdHocCall U64 Unit where
  start w _ weight := some (w, ⟨weight, .addEvents⟩)
  act w _ c _ := c.step w

abbrev AdHocState := Pool AdHocCounters AdHocCall

def AdHocState.initial : AdHocState := ⟨⟨0, 0⟩, []⟩

/-! ## The statistics -/

inductive AdHocGetPc where
  | loadEvents
  | loadUnits
  | returned
deriving DecidableEq, Repr

/-- A call of `AdHocStats::get` in progress, with what it has loaded. -/
structure AdHocGet where
  stats : AdHocStats
  pc : AdHocGetPc
deriving DecidableEq

def AdHocGet.init : AdHocGet := ⟨⟨0, 0⟩, .loadEvents⟩

/-- One atomic step of `AdHocStats::get`. -/
def AdHocGet.step (w : AdHocCounters) (r : AdHocGet) : Option AdHocGet :=
  match r.pc with
  | .loadEvents => some ⟨{ r.stats with totalEvents := w.events }, .loadUnits⟩
  | .loadUnits => some ⟨{ r.stats with totalUnits := w.units }, .returned⟩
  | .returned => none

variable {w w' : AdHocCounters} {c c' : AdHocCall} {ms ms' : List (Move U64 Unit)}
  {s₀ s s' : AdHocState} {ok : AdHocState → Move U64 Unit → Prop}

/-! ## What has been added -/

/-- What a call has added to the events. -/
def AdHocCall.events (c : AdHocCall) : Nat := if c.pc = .addEvents then 0 else 1

/-- What a call has added to the units. -/
def AdHocCall.units (c : AdHocCall) : Nat := if c.pc = .returned then c.weight.toNat else 0

theorem AdHocCall.step_adds (stepped : c.step w = some (w', c')) :
    (w'.events + (c.events : U64) = w.events + (c'.events : U64) ∧
      w'.units + (c.units : U64) = w.units + (c'.units : U64)) ∧
    c.events ≤ c'.events ∧ c.units ≤ c'.units ∧ c'.weight = c.weight := by
  unfold step at stepped
  split at stepped
  case h_1 pc =>
      cases stepped
      simp [events, units, pc]
  case h_2 pc =>
      cases stepped
      simp [events, units, pc, BitVec.natCast_eq_ofNat]
  case h_3 => cases stepped

/-- A quantity of the calls, added up. -/
def AdHocState.total (s : AdHocState) (f : AdHocCall → Nat) : Nat := (s.procs.map f).sum

theorem natCast_total (s : AdHocState) (f : AdHocCall → Nat) :
    ((s.total f : ℕ) : U64) = (s.procs.map fun c => (f c : U64)).sum := by
  rw [AdHocState.total, Nat.cast_list_sum, List.map_map]
  rfl

theorem counters_eq (run : adHocProgram.Exec ok AdHocState.initial ms s) :
    s.shared.events = (s.total AdHocCall.events : ℕ) ∧ s.shared.units = (s.total AdHocCall.units : ℕ) := by
  rw [natCast_total, natCast_total]
  refine ⟨Exec.account (c := AdHocCounters.events) ?_ ?_ run rfl,
    Exec.account (c := AdHocCounters.units) ?_ ?_ run rfl⟩
  · intro s x m p _ started
    cases started
    simp [AdHocCall.events]
  · intro m i p a m' p' acted
    exact (AdHocCall.step_adds acted).1.1
  · intro s x m p _ started
    cases started
    simp [AdHocCall.units]
  · intro m i p a m' p' acted
    exact (AdHocCall.step_adds acted).1.2

theorem total_mono (rest : adHocProgram.Exec ok s ms s') :
    s.total AdHocCall.events ≤ s'.total AdHocCall.events ∧
      s.total AdHocCall.units ≤ s'.total AdHocCall.units :=
  ⟨Exec.sum_le (fun acted => (AdHocCall.step_adds acted).2.1) rest,
    Exec.sum_le (fun acted => (AdHocCall.step_adds acted).2.2.1) rest⟩

/-- The calls that have returned. -/
def AdHocState.reported (s : AdHocState) : List AdHocCall := s.procs.filter fun c => c.pc = .returned

def weights (cs : List AdHocCall) : Nat := (cs.map fun c => c.weight.toNat).sum

/-- All calls have been begun, and the reported ones have added all that they add. -/
theorem total_bounds (s : AdHocState) :
    (s.reported.length ≤ s.total AdHocCall.events ∧ s.total AdHocCall.events ≤ s.procs.length) ∧
      weights s.reported = s.total AdHocCall.units ∧ s.total AdHocCall.units ≤ weights s.procs := by
  have length : ∀ cs : List AdHocCall, cs.length = (cs.map fun _ => 1).sum := by
    intro cs
    rw [List.map_const', List.sum_replicate_nat, Nat.mul_one]
  refine ⟨⟨?_, ?_⟩, ?_, ?_⟩
  · rw [length, AdHocState.reported, ← sum_map_ite]
    refine List.sum_le_sum fun c _ => ?_
    by_cases returned : c.pc = .returned
    · simp [AdHocCall.events, returned]
    · simp [returned]
  · rw [length]
    refine List.sum_le_sum fun c _ => ?_
    rw [AdHocCall.events]
    split <;> omega
  · rw [weights, AdHocState.reported, ← sum_map_ite]
    refine congrArg List.sum (List.map_congr_left fun c _ => ?_)
    simp only [AdHocCall.units, decide_eq_true_eq]
  · refine List.sum_le_sum fun c _ => ?_
    rw [AdHocCall.units]
    split <;> omega

/-! ## What statistics show -/

/-- What a reader knows, of the states that it has been in. -/
structure AdHocGet.Known (V : AdHocState → Prop) (r : AdHocGet) : Prop where
  events : r.pc ≠ .loadEvents → ∃ t : AdHocState, V t ∧ r.stats.totalEvents = t.shared.events
  units : r.pc = .returned → ∃ t : AdHocState, V t ∧ r.stats.totalUnits = t.shared.units

theorem AdHocGet.Known.read {V : AdHocState → Prop} {t : AdHocState} {r r' : AdHocGet} (visited : V t)
    (known : r.Known V) (reading : r.step t.shared = some r') : r'.Known V := by
  unfold AdHocGet.step at reading
  split at reading
  case h_1 pc =>
      cases reading
      exact ⟨fun _ => ⟨t, visited, rfl⟩, fun returned => (by cases returned)⟩
  case h_2 pc =>
      cases reading
      exact ⟨fun _ => known.events (by rw [pc]; exact AdHocGetPc.noConfusion), fun _ => ⟨t, visited, rfl⟩⟩
  case h_3 => cases reading

theorem known_of_observes {r : AdHocGet} (obs : Observes adHocProgram ok AdHocGet.step s₀ .init ms s r)
    (returned : r.pc = .returned) :
    (∃ t : AdHocState, Visited adHocProgram ok s₀ ms s t ∧ r.stats.totalEvents = t.shared.events) ∧
      ∃ t : AdHocState, Visited adHocProgram ok s₀ ms s t ∧ r.stats.totalUnits = t.shared.units := by
  have known := obs.invariant (I := AdHocGet.Known)
    (fun more known => ⟨fun later => (known.events later).imp fun t => .imp_left (more t),
      fun returned => (known.units returned).imp fun t => .imp_left (more t)⟩)
    (fun visited known reading => known.read visited reading)
    fun V => ⟨fun later => absurd rfl later, fun returned => (by cases returned)⟩
  exact ⟨known.events (by rw [returned]; exact AdHocGetPc.noConfusion), known.units returned⟩

/-- There are fewer than `2 ^ 64` events, of fewer than `2 ^ 64` units together. -/
structure AdHocState.Bounded (s : AdHocState) : Prop where
  events : s.procs.length < 2 ^ 64
  units : weights s.procs < 2 ^ 64

theorem AdHocState.Bounded.before (rest : adHocProgram.Exec ok s ms s') (bounded : s'.Bounded) :
    s.Bounded := by
  have length : ∀ s : AdHocState, s.procs.length = (s.procs.map fun _ => 1).sum := by
    intro s
    rw [List.map_const', List.sum_replicate_nat, Nat.mul_one]
  refine ⟨?_, ?_⟩
  · refine Nat.lt_of_le_of_lt ?_ bounded.events
    rw [length, length]
    exact Exec.sum_le (fun _ => le_rfl) rest
  · exact Nat.lt_of_le_of_lt
      (Exec.sum_le (fun acted => by rw [(AdHocCall.step_adds acted).2.2.2]) rest) bounded.units

/-- What is loaded is what has been added in a state on the way. -/
theorem exact_of_observes {r : AdHocGet} (run : adHocProgram.Exec ok AdHocState.initial ms s₀)
    (obs : Observes adHocProgram ok AdHocGet.step s₀ .init ms' s r) (returned : r.pc = .returned)
    (bounded : s.Bounded) :
    (s₀.total AdHocCall.events ≤ r.stats.totalEvents.toNat ∧
        r.stats.totalEvents.toNat ≤ s.total AdHocCall.events) ∧
      s₀.total AdHocCall.units ≤ r.stats.totalUnits.toNat ∧
        r.stats.totalUnits.toNat ≤ s.total AdHocCall.units := by
  obtain ⟨⟨t, visited, events⟩, t', visited', units⟩ := known_of_observes obs returned
  have few := Nat.lt_of_le_of_lt (total_bounds s).1.2 bounded.events
  have small := Nat.lt_of_le_of_lt (total_bounds s).2.2 bounded.units
  obtain ⟨_, left⟩ := visited.left
  obtain ⟨_, right⟩ := visited.right
  obtain ⟨_, left'⟩ := visited'.left
  obtain ⟨_, right'⟩ := visited'.right
  have before := (total_mono left).1
  have after := (total_mono right).1
  have before' := (total_mono left').2
  have after' := (total_mono right').2
  rw [events, units, (counters_eq (run.append left)).1, (counters_eq (run.append left')).2,
    BitVec.natCast_eq_ofNat, BitVec.natCast_eq_ofNat, BitVec.toNat_ofNat, BitVec.toNat_ofNat,
    Nat.mod_eq_of_lt (by omega), Nat.mod_eq_of_lt (by omega)]
  exact ⟨⟨before, after⟩, before', after'⟩

/-- The ad-hoc document has one site, of the events and units in the statistics. -/
theorem readSites_adHoc (args : List (List Char)) (pid : U32) (stats : AdHocStats) :
    readSites (render args pid stats) = some [⟨stats.totalUnits.toNat, stats.totalEvents.toNat, []⟩] := by
  have found : ∀ f ∈ fields args pid stats,
      ((fields args pid stats).map Field.member).lookup f.key = some f.value :=
    lookup_member (documentFields_distinct _ _ _ _ _ _ _ _ _)
  have isPps := found (.array "pps" (fun pp => objectText (ppFields pp))
    (fun pp => objectValue (ppFields pp)) [point stats])
    (by simp only [fields, documentFields, List.mem_cons, true_or, or_true])
  have isFtbl := found (.array "ftbl" jsonString .string [root])
    (by simp only [fields, documentFields, List.mem_cons, true_or, or_true])
  simp only [Field.array] at isPps isFtbl
  have site := @readSite_point [] (by decide) ⟨[], stats.totalUnits, stats.totalEvents⟩
    fun s none => (List.not_mem_nil none).elim
  have parsed : parse (objectText (fields args pid stats)) = some (objectValue (fields args pid stats)) :=
    parse_objectText (documentFields_text _ _ _ _ _ _ _ _ _)
  rw [readSites, render_eq, parsed]
  simp only [objectValue, isPps, isFtbl]
  simp only [List.map_cons, List.map_nil, List.mapM_cons, List.mapM_nil]
  exact congrArg (fun o => o.bind fun site => some [site]) site

/-- Statistics taken between `s₀` and `s`. -/
structure AdHocStats.Between (s₀ s : AdHocState) (stats : AdHocStats) : Prop where
  events_ge : s₀.reported.length ≤ stats.totalEvents.toNat
  events_le : stats.totalEvents.toNat ≤ s.procs.length
  units_ge : weights s₀.reported ≤ stats.totalUnits.toNat
  units_le : stats.totalUnits.toNat ≤ weights s.reported

/-- **Ad-hoc statistics while events are reported**: they lie between what had been
reported before and what had been begun after, so does the document written from them,
and statistics taken later are no smaller. -/
theorem adHocStats_between {r₁ r₂ : AdHocGet} {s₁ s₂ s₃ : AdHocState} {ms₁ ms₂ ms₃ : List (Move U64 Unit)}
    (run : adHocProgram.Exec ok AdHocState.initial ms s₀)
    (first : Observes adHocProgram ok AdHocGet.step s₀ .init ms₁ s₁ r₁)
    (between : adHocProgram.Exec ok s₁ ms₂ s₂)
    (second : Observes adHocProgram ok AdHocGet.step s₂ .init ms₃ s₃ r₂)
    (returned₁ : r₁.pc = .returned) (returned₂ : r₂.pc = .returned) (bounded : s₃.Bounded)
    (args : List (List Char)) (pid : U32) :
    AdHocStats.Between s₀ s₁ r₁.stats ∧ AdHocStats.Between s₂ s₃ r₂.stats ∧
      (r₁.stats.totalEvents ≤ r₂.stats.totalEvents ∧ r₁.stats.totalUnits ≤ r₂.stats.totalUnits) ∧
      readSites (render args pid r₁.stats) =
        some [⟨r₁.stats.totalUnits.toNat, r₁.stats.totalEvents.toNat, []⟩] := by
  have run₂ := (run.append first.exec).append between
  have early := exact_of_observes run first returned₁ ((bounded.before second.exec).before between)
  have late := exact_of_observes run₂ second returned₂ bounded
  have mid := total_mono between
  have bounds := total_bounds
  refine ⟨⟨(bounds s₀).1.1.trans early.1.1, early.1.2.trans (bounds s₁).1.2,
      (bounds s₀).2.1.le.trans early.2.1, early.2.2.trans (bounds s₁).2.1.ge⟩,
    ⟨(bounds s₂).1.1.trans late.1.1, late.1.2.trans (bounds s₃).1.2,
      (bounds s₂).2.1.le.trans late.2.1, late.2.2.trans (bounds s₃).2.1.ge⟩,
    ⟨?_, ?_⟩, readSites_adHoc args pid r₁.stats⟩
  · exact early.1.2.trans (mid.1.trans late.1.1)
  · exact early.2.2.trans (mid.2.trans late.2.1)

/-! One event of 10 units has been reported; a second one, of 5, is reported while the
statistics are taken. -/

def reportedEvent : AdHocState :=
  (adHocProgram.run anyMove AdHocState.initial [.start 10, .act 0 (), .act 0 ()]).get (by decide)

def tornEvents : List (Option (Move U64 Unit)) :=
  [none, some (.start 5), some (.act 1 ()), some (.act 1 ()), none]

def tornEnd : AdHocState × AdHocGet :=
  (adHocProgram.observe anyMove AdHocGet.step reportedEvent .init tornEvents).get (by decide)

def laterStats : AdHocState × AdHocGet :=
  (adHocProgram.observe anyMove AdHocGet.step tornEnd.1 .init [none, none]).get (by decide)

/-- The units of the second event are in, and the event is not. -/
theorem adHocStats_between_torn :
    AdHocStats.Between reportedEvent tornEnd.1 tornEnd.2.stats ∧ tornEnd.2.stats = ⟨1, 15⟩ ∧
      tornEnd.2.stats.totalEvents ≤ laterStats.2.stats.totalEvents := by
  have run : adHocProgram.Exec anyMove AdHocState.initial _ reportedEvent :=
    Exec.of_run (Option.some_get (by decide)).symm
  have first : Observes adHocProgram anyMove AdHocGet.step reportedEvent .init
      ([] ++ tornEvents.reduceOption) tornEnd.1 tornEnd.2 :=
    .of_observe .start (Option.some_get (by decide)).symm
  have second : Observes adHocProgram anyMove AdHocGet.step tornEnd.1 .init
      ([] ++ [none, none].reduceOption) laterStats.1 laterStats.2 :=
    .of_observe .start (Option.some_get (by decide)).symm
  obtain ⟨torn, _, ⟨events, _⟩, _⟩ := adHocStats_between run first (.nil _) second (by decide) (by decide)
    ⟨by decide, by decide⟩ [] 1
  exact ⟨torn, by decide, events⟩

end DhatCompat

end ModAlloc
