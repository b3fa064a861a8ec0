import ModAlloc.Guard
import ModAlloc.Backtrace.Published

/-!
# The counters and the call-site table reconcile

Two accounts are kept of the same calls: the global counters, to which a growing
`realloc` adds the growth, and the call-site table, in which it is an event of its
new size. The table that the calls have made is one that a run of
`ModAlloc.Backtrace.Table` makes (`table_of_exec`), and each call knows its
process there (`AllocCall.Linked`), so that the two accounts can be compared call
by call.
-/

namespace ModAlloc

open Interleaving Interleaving.Program

variable {backtraces : Bool} {st : Statics} {env : Option (List Char)} {w w' : AllocWorld}
  {c c' : AllocCall} {ok : AllocState → Move (Nat × Request) Answer → Prop}
  {moves : List (Move (Nat × Request) Answer)} {s s' : AllocState}

/-! ## The table of the calls is a table -/

/-- A step of a call is one step on the table, or none. -/
theorem AllocCall.Trans.tableMove (trans : AllocCall.Trans backtraces st w c w' c') :
    w'.table = w.table ∨ ∃ m, withFrames w.table m ∧
      (tableProgram st).step w.table m = some w'.table := by
  cases trans with
  | @captured frames table pc nonempty started => exact .inr ⟨.start (.record frames c.request.size), nonempty, started⟩
  | @records k table pc stepped _ | @recorded k table pc stepped _ =>
      exact .inr ⟨.act k (), trivial, stepped⟩
  | _ => exact .inl rfl

theorem table_of_exec (run : (allocProgram backtraces st).Exec ok AllocState.initial moves s) :
    TableState.Reached st s.shared.table := by
  refine Exec.invariant (fun s => TableState.Reached st s.shared.table) ?_ run ⟨[], .nil _⟩
  intro s m s' reached _ stepped
  cases m with
  | start arg =>
      obtain ⟨w, c, started, rfl⟩ := step_start stepped
      obtain ⟨rfl, rfl⟩ := allocProgram_start started
      exact reached
  | act i a =>
      obtain ⟨c, w, c', _, acted, rfl⟩ := step_act stepped
      obtain ⟨before, tableRun⟩ := reached
      rcases (allocProgram_act acted).2.tableMove with same | ⟨m, cond, tableStep⟩
      · exact ⟨before, same ▸ tableRun⟩
      · exact ⟨before ++ [m], tableRun.snoc cond tableStep⟩

/-- The process that records a call: it was started with the size of the call, and
has returned when the call has. -/
def AllocCall.Linked (w : AllocWorld) (c : AllocCall) : Prop :=
  ∀ k, c.site = some k → ∃ r : RecordCall, w.table.procs[k]? = some (.record r) ∧
    r.size = c.request.size ∧
    (c.pc = .dropGuard ∨ c.pc = .returned → r.pc.isReturned = true)

/-- A `record` call that has returned makes no more steps. -/
theorem RecordCall.Trans.running {mem mem' : Memory} {r r' : RecordCall}
    (trans : RecordCall.Trans st mem r mem' r') : r.pc.isReturned = false := by
  cases trans <;> simp only [RecordPc.isReturned, *]

/-- A `record` process stays one on every step of the table, and once it has
returned it stays as it is. -/
theorem record_kept {table table' : TableState} {m : Move Call Unit}
    (stepped : (tableProgram st).step table m = some table') {k : Nat} {r : RecordCall}
    (at_k : table.procs[k]? = some (.record r)) :
    ∃ r' : RecordCall, table'.procs[k]? = some (.record r') ∧ r'.size = r.size ∧
      (r.pc.isReturned = true → r' = r) := by
  rcases step_getElem? stepped at_k with ⟨kept, _⟩ | ⟨a, p, _, acted, kept⟩
  · exact ⟨r, kept, rfl, fun _ => rfl⟩
  · rcases tableProgram_act acted with ⟨r₀, r', eq, rfl, trans⟩ | ⟨_, _, eq, _⟩
    · cases eq
      refine ⟨r', kept, trans.args.2, fun returned => ?_⟩
      exact absurd (trans.running.symm.trans returned) (by decide)
    · cases eq

theorem AllocCall.Linked.step_table (linked : c.Linked w) {m : Move Call Unit}
    (stepped : (tableProgram st).step w.table m = some w'.table) : c.Linked w' := by
  intro k site
  obtain ⟨r, at_k, size, returned⟩ := linked k site
  obtain ⟨r', at_k', size', kept⟩ := record_kept stepped at_k
  refine ⟨r', at_k', size'.trans size, fun done => ?_⟩
  rw [kept (returned done)]
  exact returned done

theorem AllocCall.Trans.linked (trans : AllocCall.Trans backtraces st w c w' c')
    (progress : c.Progress) (linked : c.Linked w) : c'.Linked w' := by
  have unsited : c'.site = none → c'.Linked w' := by
    intro none k site
    rw [none] at site
    cases site
  cases trans with
  | systemFrees pc _ | systemFails pc _ | systemGrants pc _ _ | enters pc _ | denied pc _ =>
      simp only [Progress, pc] at progress
      exact unsited progress.2.2
  | update pc =>
      simp only [Progress, pc] at progress
      exact unsited progress.2.2
  | seeHandle pc _ | seeNull pc _ | register pc | noFrames pc =>
      simp only [Progress, pc] at progress
      exact unsited progress.2.2.1
  | @captured frames table pc nonempty started =>
      rintro k ⟨rfl⟩
      obtain ⟨mem, p, start, eq⟩ := step_start started
      obtain ⟨rfl, rfl⟩ := tableProgram_start start
      refine ⟨.init frames c.request.size, ?_, rfl, fun done => by rcases done with done | done <;> cases done⟩
      simp only [eq, List.getElem?_concat_length, Call.init]
  | @records k table pc stepped _ =>
      intro k' site
      obtain ⟨r, at_k, size, _⟩ := linked k' site
      obtain ⟨r', at_k', size', _⟩ := record_kept stepped at_k
      exact ⟨r', at_k', size'.trans size, fun done => by rcases done with done | done <;> cases done⟩
  | @recorded k table pc stepped returned =>
      simp only [Progress, pc] at progress
      intro k' site
      obtain rfl : k = k' := Option.some.inj (progress.2.2.1.symm.trans site)
      obtain ⟨r, at_k, size, _⟩ := linked k site
      obtain ⟨r', at_k', size', _⟩ := record_kept stepped at_k
      refine ⟨r', at_k', size'.trans size, fun _ => ?_⟩
      simpa only [AllocCall.recorded, at_k'] using returned
  | dropGuard pc =>
      intro k site
      obtain ⟨r, at_k, size, returned⟩ := linked k site
      exact ⟨r, at_k, size, fun _ => returned (.inl pc)⟩

theorem linked_of_exec (run : (allocProgram backtraces st).Exec ok AllocState.initial moves s) :
    Everywhere AllocCall.Linked s := by
  refine everywhere_of_exec ?_ ?_ ?_ ?_ run
  · intro w i arg k site
    cases site
  · intro w d i arg linked
    exact linked
  · intro w c w' c' trans progress linked
    exact trans.linked progress linked
  · intro w c w' c' d trans linked
    rcases trans.tableMove with same | ⟨m, _, stepped⟩
    · intro k site
      rw [same]
      exact linked k site
    · exact linked.step_table stepped

/-! ## Call by call -/

/-- An `alloc`, `alloc_zeroed` or `realloc` that was granted, and not made inside
another call. -/
def AllocCall.counted (c : AllocCall) : Bool := !c.nested && c.allocated

/-- The table does not have the event: nothing was captured, or it was dropped. -/
def AllocCall.missed (table : TableState) (c : AllocCall) : Bool :=
  match c.site with
  | none => true
  | some k =>
      match table.procs[k]? with
      | some (.record r) => r.pc = .returned .dropped
      | _ => false

def AllocState.counted (s : AllocState) : List AllocCall := s.procs.filter AllocCall.counted

def AllocState.missed (s : AllocState) : List AllocCall :=
  s.counted.filter (AllocCall.missed s.shared.table)

/-- What the process of a call adds to a sum over the table. -/
def AllocCall.onTable (table : TableState) (f : Proc → Nat) (c : AllocCall) : Nat :=
  c.site.elim 0 fun k => (table.procs[k]?).elim 0 f

theorem sum_onTable (run : (allocProgram backtraces st).Exec ok AllocState.initial moves s)
    (f : Proc → Nat) :
    (s.procs.map (AllocCall.onTable s.shared.table f)).sum = (s.shared.table.procs.map f).sum := by
  rw [← sum_map_range f, ← ((sites_perm run).map _).sum_eq, sum_map_filterMap]
  rfl

/-- Only a counted call has a process on the table. -/
theorem AllocCall.counted_of_site {k : Nat} (progress : c.Progress) (guarded : c.Guarded w)
    (site : c.site = some k) : c.counted = true := by
  have sited : c.site ≠ none := fun none => by rw [none] at site; cases site
  simp only [counted, allocated, Bool.and_eq_true, Bool.not_eq_true']
  refine ⟨?_, ?_, ?_⟩
  · exact Bool.eq_false_of_not_eq_true fun nested => sited (guarded.nested_idle nested).2
  · exact Bool.eq_true_of_not_eq_false fun denied => sited (progress.of_denied denied).2
  · refine Bool.eq_false_of_not_eq_true fun dealloc => ?_
    unfold Progress at progress
    split at progress
    case h_1 | h_2 | h_3 => exact sited progress.2.2
    case h_4 | h_5 | h_6 => exact sited progress.2.2.1
    case h_7 => exact absurd (dealloc.symm.trans progress.2.2.2) (by decide)
    case h_8 => exact sited (progress.2.2 dealloc)
    case h_9 => exact progress.elim (fun none => sited none.2) fun full => sited (full.2.2 dealloc)

/-- Of the `record` calls that have returned, the dropped ones have added nothing. -/
theorem RecordCall.Sound.slots {mem : Memory} {r : RecordCall} (sound : r.Sound st mem)
    (frames : 1 ≤ r.frames.count.val) {outcome : Outcome} (pc : r.pc = .returned outcome) :
    (r.pc.countedSlot.isSome = true ↔ r.pc ≠ .returned .dropped) ∧
      (r.pc.summedSlot.isSome = true ↔ r.pc ≠ .returned .dropped) := by
  rcases sound.returned frames pc with ⟨b, _, _, counted, summed⟩ | ⟨rfl, _⟩
  · have kept : r.pc ≠ .returned .dropped := by
      intro dropped
      rw [dropped] at counted
      cases counted
    rw [counted, summed]
    exact ⟨⟨fun _ => kept, fun _ => rfl⟩, ⟨fun _ => kept, fun _ => rfl⟩⟩
  · rw [pc]
    exact ⟨⟨fun some => absurd some (by decide), fun kept => absurd rfl kept⟩,
      ⟨fun some => absurd some (by decide), fun kept => absurd rfl kept⟩⟩

/-- With no call in progress, each has done all of its updates or none. -/
theorem effect_of_quiescent {k : Counter}
    (run : (allocProgram backtraces st).Exec Nesting AllocState.initial moves s)
    (quiescent : s.Quiescent) (inProcs : c ∈ s.procs) :
    c.effect k = if c.nested = false ∧ c.granted = true then c.request.effect k else 0 := by
  obtain ⟨i, at_i⟩ := mem_procs_iff.mp inProcs
  exact AllocCall.effect_returned ((numbered_of_exec run).wellFormed i c at_i)
    ((guarded_of_exec run).2 i c at_i) (quiescent c inProcs)

theorem sum_effect_allocCount (run : (allocProgram backtraces st).Exec Nesting AllocState.initial moves s)
    (quiescent : s.Quiescent) :
    (s.procs.map (AllocCall.effect .allocCount)).sum = (s.counted.length : ℤ) := by
  have each : ∀ c ∈ s.procs, c.effect .allocCount = if c.counted = true then 1 else 0 := by
    intro c inProcs
    rw [effect_of_quiescent run quiescent inProcs, Request.effect_allocCount]
    cases nested : c.nested <;> cases granted : c.granted <;> cases kind : c.request.isDealloc <;>
      simp [AllocCall.counted, AllocCall.allocated, nested, granted, kind]
  rw [List.map_congr_left each, sum_map_ite, List.map_const', List.sum_replicate, nsmul_one]
  rfl

theorem sum_effect_totalBytes (run : (allocProgram backtraces st).Exec Nesting AllocState.initial moves s)
    (quiescent : s.Quiescent) :
    (s.procs.map (AllocCall.effect .totalBytes)).sum + (s.counted.map fun c => c.request.overlap).sum =
      (s.counted.map fun c => c.request.size.toNat).sum := by
  have each : ∀ c ∈ s.procs, c.effect .totalBytes + (if c.counted = true then c.request.overlap else 0 : ℕ) =
      (if c.counted = true then c.request.size.toNat else 0 : ℕ) := by
    intro c inProcs
    have balance := c.request.effect_totalBytes
    rw [effect_of_quiescent run quiescent inProcs]
    cases nested : c.nested <;> cases granted : c.granted <;> cases kind : c.request.isDealloc <;>
      simp [AllocCall.counted, AllocCall.allocated, nested, granted, kind]
    · exact balance
    · exact Request.effect_totalBytes_of_dealloc kind
  rw [AllocState.counted, ← sum_map_ite, ← sum_map_ite, Nat.cast_list_sum, Nat.cast_list_sum,
    List.map_map, List.map_map, ← List.sum_map_add]
  exact congrArg List.sum (List.map_congr_left each)

section Quiescent

variable (init : st.Initialised env)
  (run : (allocProgram true st).Exec Nesting AllocState.initial moves s) (quiescent : s.Quiescent)

include init run quiescent

/-- With a slot that the dropped calls alone are without: what a call has on the
table and what is missed of it make up its event. -/
theorem onTable_add_missed {slot : RecordPc → Option Nat}
    (slots : ∀ {mem : Memory} {r : RecordCall}, r.Sound st mem → 1 ≤ r.frames.count.val →
      ∀ {outcome}, r.pc = .returned outcome → ((slot r.pc).isSome = true ↔ r.pc ≠ .returned .dropped))
    (weight : U64 → Nat) :
    ∀ c ∈ s.procs,
      c.onTable s.shared.table (Proc.tally (fun r => (slot r.pc).isSome) fun r => weight r.size) +
          (if (c.missed s.shared.table && c.counted) = true then weight c.request.size else 0) =
        if c.counted = true then weight c.request.size else 0 := by
  intro c inProcs
  obtain ⟨i, at_i⟩ := mem_procs_iff.mp inProcs
  have returned := quiescent c inProcs
  have wellFormed := (numbered_of_exec run).wellFormed i c at_i
  have guarded := (guarded_of_exec run).2 i c at_i
  cases site : c.site with
  | none =>
      simp only [AllocCall.onTable, site, Option.elim_none, AllocCall.missed, Bool.true_and,
        Nat.zero_add]
  | some k =>
      obtain ⟨r, at_k, size, done⟩ := linked_of_exec run i c at_i k site
      obtain ⟨tableMoves, tableRun⟩ := table_of_exec run
      have inCalls : r ∈ s.shared.table.calls :=
        mem_calls_iff.mpr (mem_procs_iff.mpr ⟨k, at_k⟩)
      obtain ⟨outcome, pc⟩ := RecordPc.isReturned_iff.mp (done (.inr returned))
      have kept := slots ((sound_of_exec init tableRun).2 r inCalls)
        (frames_of_exec tableRun r inCalls) pc
      simp only [AllocCall.onTable, site, Option.elim_some, at_k, Proc.tally, AllocCall.missed,
        AllocCall.counted_of_site wellFormed.progress guarded site, Bool.and_true, decide_eq_true_eq,
        if_true, kept, size]
      split <;> simp_all

/-- **The table has every event that was not missed.** -/
theorem tally_add_missed {slot : RecordPc → Option Nat}
    (slots : ∀ {mem : Memory} {r : RecordCall}, r.Sound st mem → 1 ≤ r.frames.count.val →
      ∀ {outcome}, r.pc = .returned outcome → ((slot r.pc).isSome = true ↔ r.pc ≠ .returned .dropped))
    (weight : U64 → Nat) :
    s.shared.table.tally (fun r => (slot r.pc).isSome) (fun r => weight r.size) +
        (s.missed.map fun c => weight c.request.size).sum =
      (s.counted.map fun c => weight c.request.size).sum := by
  rw [TableState.tally_procs, ← sum_onTable run, AllocState.missed, AllocState.counted,
    List.filter_filter, ← sum_map_ite, ← sum_map_ite, ← List.sum_map_add]
  exact congrArg List.sum (List.map_congr_left (onTable_add_missed init run quiescent slots weight))

omit quiescent in
/-- The buckets together, up to the wrapping of each, in a field that goes by the slots
of the calls. -/
theorem sum_buckets {field : Bucket → U64} {slot : RecordPc → Option Nat} {f : RecordCall → Nat}
    (counted : ∀ {pc b}, slot pc = some b → RecordPc.countedSlot pc = some b)
    (tallied : ∀ b, (field (s.shared.table.shared b)).toNat =
      s.shared.table.tally (fun r => slot r.pc = some b) f % 2 ^ 64) :
    (∑ b ∈ Finset.range st.buckets, (field (s.shared.table.shared b)).toNat) ≡
        s.shared.table.tally (fun r => (slot r.pc).isSome) f [MOD 2 ^ 64] ∧
      (∑ b ∈ Finset.range st.buckets, (field (s.shared.table.shared b)).toNat) ≤
        s.shared.table.tally (fun r => (slot r.pc).isSome) f := by
  obtain ⟨tableMoves, tableRun⟩ := table_of_exec run
  have total : ∑ b ∈ Finset.range st.buckets,
      s.shared.table.tally (fun r => slot r.pc = some b) f =
        s.shared.table.tally (fun r => (slot r.pc).isSome) f :=
    sum_slots _ _ fun r inCalls b slot =>
      (((sound_of_exec init tableRun).2 r inCalls).counted (counted slot)).1
  rw [← total]
  refine ⟨Nat.ModEq.sum fun b _ => ?_, Finset.sum_le_sum fun b _ => ?_⟩
  · rw [tallied b]
    exact Nat.mod_modEq _ _
  · rw [tallied b]
    exact Nat.mod_le _ _

omit quiescent in
theorem sum_counts :
    (∑ b ∈ Finset.range st.buckets, (s.shared.table.shared b).count.toNat) ≡
        s.shared.table.tally (fun r => r.pc.countedSlot.isSome) (fun _ => 1) [MOD 2 ^ 64] ∧
      (∑ b ∈ Finset.range st.buckets, (s.shared.table.shared b).count.toNat) ≤
        s.shared.table.tally (fun r => r.pc.countedSlot.isSome) (fun _ => 1) := by
  obtain ⟨tableMoves, tableRun⟩ := table_of_exec run
  exact sum_buckets init run id (count_tally tableRun)

omit quiescent in
theorem sum_bytes :
    (∑ b ∈ Finset.range st.buckets, (s.shared.table.shared b).totalBytes.toNat) ≡
      s.shared.table.tally (fun r => r.pc.summedSlot.isSome) (fun r => r.size.toNat) [MOD 2 ^ 64] := by
  obtain ⟨tableMoves, tableRun⟩ := table_of_exec run
  exact (sum_buckets init run RecordPc.countedSlot_of_summedSlot (bytes_tally tableRun)).1

end Quiescent

/-! An allocation from which one frame is captured, and a `realloc` of its block
from which none is. -/

/-- A frame whose caller is at `0x1111`, and nothing above it. -/
def oneFrame : Answer :=
  { ptr := 0, fp := 0x7f00, bounds := some ⟨0x7000, 0x8000⟩
    words := fun a => if a = 0x7f08 then 0x1111 else 0 }

def reconcileMoves : List (Move (Nat × Request) Answer) :=
  .start (0, .alloc 16) :: .act 0 (.bare 0x1000) :: List.replicate 20 (.act 0 oneFrame) ++
    .start (0, .realloc ⟨0x1000, 16⟩ 24) :: .act 1 (.bare 0x2000) ::
    List.replicate 8 (.act 1 (.bare 0))

def reconcileEnd : AllocState :=
  ((allocProgram true raceStatics).run Nesting AllocState.initial reconcileMoves).get (by decide)

theorem reconcileRun :
    (allocProgram true raceStatics).Exec Nesting AllocState.initial reconcileMoves reconcileEnd :=
  Exec.of_run (Option.some_get (by decide)).symm

end ModAlloc
