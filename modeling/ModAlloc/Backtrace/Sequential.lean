import ModAlloc.Backtrace.Published
import ModAlloc.Lib.Aggregate

/-!
# One event after another

`record` and `call_sites_report` run to their end without interference: the steps
of `ModAlloc.Backtrace.Table`, one after the other. A table recorded like this is one
that the interleaved machine reaches (`recordAll_exec`), and a scan of a table at rest
gives the rows of its buckets, in order (`callSitesReport_eq`).
-/

namespace ModAlloc

open Interleaving Interleaving.Program Aggregate

variable {st : Statics} {env : Option (List Char)} {mem mem' : Memory} {c c' : RecordCall}
  {r r' : ScanCall}

/-! ## Running to the end -/

/-- Up to `n` steps of a `record` call. -/
def RecordCall.finish (st : Statics) : Nat → Memory × RecordCall → Memory × RecordCall
  | 0, p => p
  | n + 1, p =>
      match p.2.step st p.1 with
      | some p' => finish st n p'
      | none => p

/-- `record(frames, size)`, all of it. A call makes at most `2 * buckets + 15` steps. -/
def record (st : Statics) (mem : Memory) (frames : Frames) (size : U64) : Memory :=
  (RecordCall.finish st (2 * st.buckets + 16) (mem, .init frames size)).1

/-- A list of events, recorded in order into an empty table. -/
def recordAll (st : Statics) (events : List (Frames × U64)) : Memory :=
  events.foldl (fun mem e => record st mem e.1 e.2) Memory.empty

/-- Up to `n` steps of a scan. -/
def ScanCall.finish (st : Statics) (mem : Memory) : Nat → ScanCall → ScanCall
  | 0, r => r
  | n + 1, r =>
      match r.step st mem with
      | some r' => finish st mem n r'
      | none => r

/-- `call_sites_report()`, all of it. A scan makes at most twelve steps for each bucket. -/
def callSitesReport (st : Statics) (mem : Memory) : List CallSiteStats :=
  (ScanCall.finish st mem (12 * st.buckets + 4) .init).out

/-! ## Recording in order is a run of the machine -/

theorem RecordCall.finish_args (st : Statics) (n : Nat) (p : Memory × RecordCall) :
    (finish st n p).2.frames = p.2.frames ∧ (finish st n p).2.size = p.2.size := by
  induction n generalizing p with
  | zero => exact ⟨rfl, rfl⟩
  | succ n ih =>
      unfold finish
      split
      case h_1 p' stepped =>
          obtain ⟨frames, size⟩ := (trans_of_step stepped).args
          exact ⟨(ih p').1.trans frames, (ih p').2.trans size⟩
      case h_2 => exact ⟨rfl, rfl⟩

/-- The steps are moves of the machine, `n` of them unless the call comes to its end. -/
theorem RecordCall.finish_exec (st : Statics) (n : Nat) {s : TableState} {i : Nat} (c : RecordCall)
    (at_i : s.procs[i]? = some (.record c)) :
    ∃ moves, (tableProgram st).Exec withFrames s moves
        ⟨(finish st n (s.shared, c)).1, s.procs.set i (.record (finish st n (s.shared, c)).2)⟩ ∧
      ((finish st n (s.shared, c)).2.step st (finish st n (s.shared, c)).1 = none ∨
        moves.countP (Move.isActOf i) = n) := by
  induction n generalizing s c with
  | zero =>
      refine ⟨[], ?_, .inr rfl⟩
      have same : s.procs.set i (.record c) = s.procs := by
        obtain ⟨inRange, eq⟩ := List.getElem?_eq_some_iff.mp at_i
        rw [← eq, List.set_getElem_self]
      rw [finish, same]
      exact .nil s
  | succ n ih =>
      cases stepped : c.step st s.shared with
      | none =>
          have stay : finish st (n + 1) (s.shared, c) = (s.shared, c) := by
            simp only [finish, stepped]
          have same : s.procs.set i (.record c) = s.procs := by
            obtain ⟨inRange, eq⟩ := List.getElem?_eq_some_iff.mp at_i
            rw [← eq, List.set_getElem_self]
          rw [stay, same]
          exact ⟨[], .nil s, .inl stepped⟩
      | some p =>
          have go : finish st (n + 1) (s.shared, c) = finish st n p := by
            simp only [finish, stepped]
          have acted : (tableProgram st).act s.shared i (.record c) () = some (p.1, .record p.2) := by
            simp only [tableProgram, Proc.step, stepped, Option.map_some]
          have inRange := (List.getElem?_eq_some_iff.mp at_i).1
          obtain ⟨moves, rest, count⟩ := ih (s := ⟨p.1, s.procs.set i (.record p.2)⟩) p.2
            (List.getElem?_set_self inRange)
          rw [go]
          rw [List.set_set] at rest
          refine ⟨.act i () :: moves, .cons trivial (step_act_eq at_i acted) rest, count.imp_right ?_⟩
          intro many
          rw [List.countP_cons, many]
          simp only [Move.isActOf, beq_self_eq_true, if_true]

/-- A recorded event, as the machine has it at the end. -/
def RecordCall.event (c : RecordCall) : Frames × U64 := (c.frames, c.size)

theorem record_exec (init : st.Initialised env) {moves : List (Move Call Unit)} {s : TableState}
    (run : (tableProgram st).Exec withFrames TableState.empty moves s) {e : Frames × U64}
    (nonempty : 1 ≤ e.1.count.val) :
    ∃ c moves', (tableProgram st).Exec withFrames s moves'
        ⟨record st s.shared e.1 e.2, s.procs ++ [.record c]⟩ ∧
      (∃ outcome, c.pc = .returned outcome) ∧ c.event = e := by
  let begun : TableState := ⟨s.shared, s.procs ++ [.record (.init e.1 e.2)]⟩
  have started : (tableProgram st).step s (.start (.record e.1 e.2)) = some begun := rfl
  have at_i : begun.procs[s.procs.length]? = some (.record (.init e.1 e.2)) :=
    List.getElem?_concat_length
  obtain ⟨acts, rest, ended⟩ := RecordCall.finish_exec st (2 * st.buckets + 16) _ at_i
  have last : begun.procs.set s.procs.length
      (.record (RecordCall.finish st (2 * st.buckets + 16) (begun.shared, .init e.1 e.2)).2) =
        s.procs ++ [.record (RecordCall.finish st (2 * st.buckets + 16)
          (s.shared, .init e.1 e.2)).2] := by
    rw [List.set_append_right _ _ (Nat.le_refl _), Nat.sub_self]
    rfl
  rw [last] at rest
  have whole : (tableProgram st).Exec withFrames s (.start (.record e.1 e.2) :: acts) _ :=
    .cons nonempty started rest
  refine ⟨_, _, whole, ?_, ?_⟩
  · obtain ⟨_, few, returned | ⟨s', stepped⟩⟩ :=
      record_returns init (run.append whole) List.getElem?_concat_length
    · exact returned
    · rcases ended with halted | many
      · obtain ⟨p, mem, p', at_i', acted, _⟩ := step_act stepped
        obtain rfl := Option.some.inj (List.getElem?_concat_length.symm.trans at_i')
        simp only [tableProgram, Proc.step] at acted
        rw [halted] at acted
        cases acted
      · rw [List.countP_append, List.countP_cons, many] at few
        omega
  · obtain ⟨frames, size⟩ := RecordCall.finish_args st (2 * st.buckets + 16)
      (s.shared, .init e.1 e.2)
    exact Prod.ext frames size

theorem recordAll_exec (init : st.Initialised env) {events : List (Frames × U64)}
    (nonempty : ∀ e ∈ events, 1 ≤ e.1.count.val) :
    ∃ (moves : List (Move Call Unit)) (s : TableState),
      (tableProgram st).Exec withFrames TableState.empty moves s ∧ s.shared = recordAll st events ∧ s.Quiescent ∧
      s.calls.map RecordCall.event = events := by
  induction events using List.reverseRecOn with
  | nil => exact ⟨[], _, .nil _, rfl, fun c inCalls => (by cases inCalls), rfl⟩
  | append_singleton events e ih =>
      obtain ⟨moves, s, run, shared, quiescent, calls⟩ :=
        ih fun e' inEvents => nonempty e' (List.mem_append_left _ inEvents)
      obtain ⟨c, moves', rest, returned, event⟩ :=
        record_exec init run (nonempty e (List.mem_append_right _ List.mem_cons_self))
      have calls' : ∀ ps : List Proc, TableState.calls ⟨record st s.shared e.1 e.2, ps ++ [.record c]⟩ =
          TableState.calls ⟨s.shared, ps⟩ ++ [c] := by
        intro ps
        simp only [TableState.calls, List.filterMap_append]
        rfl
      refine ⟨moves ++ moves', _, run.append rest, ?_, ?_, ?_⟩
      · rw [recordAll, List.foldl_concat, shared]
        rfl
      · intro d inCalls
        rw [calls'] at inCalls
        rcases List.mem_append.mp inCalls with before | here
        · exact quiescent d before
        · exact List.mem_singleton.mp here ▸ returned
      · rw [calls', List.map_append, List.map_singleton, event]
        exact congrArg (· ++ [e]) calls

/-- An event without frames leaves the table as it is. -/
theorem record_empty {frames : Frames} (none : frames.count.val = 0) (size : U64) :
    record st mem frames size = mem := by
  have halted : (RecordCall.init frames size).step st mem = .none := by
    simp only [RecordCall.init, none, if_true, RecordCall.step]
  simp only [record, RecordCall.finish, halted]

theorem recordAll_filter (events : List (Frames × U64)) :
    recordAll st events = recordAll st (events.filter fun e => 1 ≤ e.1.count.val) := by
  induction events using List.reverseRecOn with
  | nil => rfl
  | append_singleton events e ih =>
      rw [recordAll, List.foldl_concat, ← recordAll, ih, List.filter_append]
      by_cases some : 1 ≤ e.1.count.val
      · rw [List.filter_cons_of_pos (by simpa using some), List.filter_nil, recordAll, recordAll,
          List.foldl_concat]
      · rw [List.filter_cons_of_neg (by simpa using some), List.filter_nil, List.append_nil]
        exact record_empty (by omega) _

/-! ## The report of a table at rest -/

/-- The row of a bucket, if it has one. -/
def rowAt (mem : Memory) (b : Nat) : Option CallSiteStats :=
  if (mem b).hash = 0 then none
  else if (mem b).frameCount = 0 then none
  else
    let n := ScanCall.clampFrameCount (mem b).frameCount
    some ⟨firstFrames (mem b).sampleFrames n, n, (mem b).count, (mem b).totalBytes⟩

/-- The rows of the first `i` buckets. -/
def rowsBelow (mem : Memory) (i : Nat) : List CallSiteStats := (List.range i).filterMap (rowAt mem)

theorem rowsBelow_succ (mem : Memory) (i : Nat) :
    rowsBelow mem (i + 1) = rowsBelow mem i ++ (rowAt mem i).toList := by
  rw [rowsBelow, List.range_succ, List.filterMap_append, ← rowsBelow]
  cases row : rowAt mem i <;> simp [row]

/-- The bucket at hand has a row, of `n` frames. -/
def ScanCall.Reads (st : Statics) (mem : Memory) (r : ScanCall) (i : Nat) (n : Fin 9) : Prop :=
  i < st.buckets ∧ r.out = rowsBelow mem i ∧ (mem i).hash ≠ 0 ∧ (mem i).frameCount ≠ 0 ∧
    n = clampFrameCount (mem i).frameCount

/-- Where a scan of a table at rest stands. -/
def ScanCall.Still (st : Statics) (mem : Memory) (r : ScanCall) : Prop :=
  match r.pc with
  | .loadBase | .loadBuckets | .loadMask => r.out = []
  | .loadHash i => i < st.buckets ∧ r.out = rowsBelow mem i
  | .loadFrameCount i => i < st.buckets ∧ r.out = rowsBelow mem i ∧ (mem i).hash ≠ 0
  | .loadFrame i n j frames =>
      r.Reads st mem i n ∧ j.val < n.val ∧ frames = firstFrames (mem i).sampleFrames j
  | .loadCount i n frames => r.Reads st mem i n ∧ frames = firstFrames (mem i).sampleFrames n
  | .loadBytes i n frames count =>
      r.Reads st mem i n ∧ frames = firstFrames (mem i).sampleFrames n ∧ count = (mem i).count
  | .returned => r.out = rowsBelow mem st.buckets

/-- A measure that every step of a scan raises. -/
def ScanCall.progress (st : Statics) (r : ScanCall) : Nat :=
  match r.pc with
  | .loadBase => 0
  | .loadBuckets => 1
  | .loadMask => 2
  | .loadHash i => 12 * i + 3
  | .loadFrameCount i => 12 * i + 4
  | .loadFrame i _ j _ => 12 * i + 5 + j
  | .loadCount i _ _ => 12 * i + 13
  | .loadBytes i _ _ _ => 12 * i + 14
  | .returned => 12 * st.buckets + 3

theorem ScanCall.still_loop {i : Nat} (inRange : i ≤ st.buckets) (rows : r.out = rowsBelow mem i) :
    ScanCall.Still st mem { r with pc := loop st i } ∧
      ScanCall.progress st { r with pc := loop st i } = 12 * i + 3 := by
  by_cases more : i < st.buckets
  · simp only [loop, if_pos more, Still, progress]
    exact ⟨⟨more, rows⟩, trivial⟩
  · obtain rfl : i = st.buckets := by omega
    simp only [loop, Nat.lt_irrefl, if_false, Still, progress]
    exact ⟨rows, trivial⟩

theorem ScanCall.Trans.still (trans : ScanCall.Trans st mem r r') (still : r.Still st mem) :
    r'.Still st mem ∧ r.progress st < r'.progress st := by
  cases trans with
  | loadBase pc _ | loadBuckets pc =>
      simp only [Still, pc] at still
      exact ⟨still, by simp only [progress, pc]; omega⟩
  | loadMask pc =>
      simp only [Still, pc] at still
      have empty : r.out = rowsBelow mem 0 := still
      obtain ⟨still', measure⟩ := still_loop (Nat.zero_le st.buckets) empty
      exact ⟨still', by rw [measure]; simp only [progress, pc]; omega⟩
  | @skipFree i pc free =>
      simp only [Still, pc] at still
      have rows : r.out = rowsBelow mem (i + 1) := by
        rw [rowsBelow_succ, rowAt, if_pos free, Option.toList_none, List.append_nil, still.2]
      obtain ⟨still', measure⟩ := still_loop (Nat.succ_le_of_lt still.1) rows
      exact ⟨still', by rw [measure]; simp only [progress, pc]; omega⟩
  | seeHash pc claimed =>
      simp only [Still, pc] at still
      exact ⟨⟨still.1, still.2, claimed⟩, by simp only [progress, pc]; omega⟩
  | @skipUnpublished i pc unpublished =>
      simp only [Still, pc] at still
      have rows : r.out = rowsBelow mem (i + 1) := by
        rw [rowsBelow_succ, rowAt, if_neg still.2.2, if_pos unpublished, Option.toList_none,
          List.append_nil, still.2.1]
      obtain ⟨still', measure⟩ := still_loop (Nat.succ_le_of_lt still.1) rows
      exact ⟨still', by rw [measure]; simp only [progress, pc]; omega⟩
  | @seePublished i pc published =>
      simp only [Still, pc] at still
      refine ⟨⟨⟨still.1, still.2.1, still.2.2, published, rfl⟩, ?_, ?_⟩, ?_⟩
      · have : (mem i).frameCount.toNat ≠ 0 := fun zero => published (BitVec.eq_of_toNat_eq zero)
        simp only [clampFrameCount]
        show 0 < min (mem i).frameCount.toNat 8
        omega
      · exact (firstFrames_zero _).symm
      · simp only [progress, pc]
        show _ < 12 * i + 5 + 0
        omega
  | @loadFrame i n j frames more pc =>
      simp only [Still, pc] at still
      obtain ⟨reads, _, rfl⟩ := still
      exact ⟨⟨reads, more, firstFrames_set _ j.isLt⟩, by simp only [progress, pc]; omega⟩
  | @loadLastFrame i n j frames last pc =>
      simp only [Still, pc] at still
      obtain ⟨reads, below, rfl⟩ := still
      refine ⟨⟨reads, ?_⟩, ?_⟩
      · rw [show (n : Nat) = j.val + 1 by omega]
        exact firstFrames_set _ j.isLt
      · simp only [progress, pc]
        omega
  | loadCount pc =>
      simp only [Still, pc] at still
      exact ⟨⟨still.1, still.2, rfl⟩, by simp only [progress, pc]; omega⟩
  | @loadBytes i n frames count pc =>
      simp only [Still, pc] at still
      obtain ⟨⟨inRange, rows, claimed, published, rfl⟩, rfl, rfl⟩ := still
      have rows' : r.out ++ [⟨firstFrames (mem i).sampleFrames
          (clampFrameCount (mem i).frameCount), clampFrameCount (mem i).frameCount, (mem i).count,
          (mem i).totalBytes⟩] = rowsBelow mem (i + 1) := by
        rw [rowsBelow_succ, rowAt, if_neg claimed, if_neg published, rows]
        rfl
      obtain ⟨still', measure⟩ := still_loop (r := { r with out := _ })
        (Nat.succ_le_of_lt inRange) rows'
      exact ⟨still', by rw [measure]; simp only [progress, pc]; omega⟩

theorem ScanCall.Still.progress_le (still : r.Still st mem) :
    r.progress st ≤ 12 * st.buckets + 3 := by
  unfold Still Reads at still
  unfold progress
  cases pc : r.pc <;> simp only [pc] at still ⊢ <;> omega

theorem ScanCall.finish_still (n : Nat) (still : r.Still st mem) :
    (finish st mem n r).Still st mem ∧
      ((finish st mem n r).step st mem = none ∨ r.progress st + n ≤ (finish st mem n r).progress st) := by
  induction n generalizing r with
  | zero => exact ⟨still, .inr (Nat.le_refl _)⟩
  | succ n ih =>
      unfold finish
      split
      case h_1 r' stepped =>
          obtain ⟨still', more⟩ := (trans_of_step stepped).still still
          obtain ⟨last, ended⟩ := ih still'
          exact ⟨last, ended.imp_right fun many => by omega⟩
      case h_2 halted => exact ⟨still, .inl halted⟩

/-- **A scan of a table at rest gives the rows of its buckets, in order.** -/
theorem callSitesReport_eq (init : st.Initialised env) (mem : Memory) :
    callSitesReport st mem = rowsBelow mem st.buckets := by
  have begun : ScanCall.Still st mem .init := rfl
  obtain ⟨still, ended⟩ := ScanCall.finish_still (12 * st.buckets + 4) begun
  have bound := still.progress_le
  have begins : ScanCall.progress st .init = 0 := rfl
  have halted := ended.resolve_right (by omega)
  rw [callSitesReport]
  generalize ScanCall.finish st mem (12 * st.buckets + 4) .init = last at still halted
  unfold ScanCall.step at halted
  split at halted
  case h_1 => rw [if_neg init.base_ne_null] at halted; cases halted
  case h_9 pc =>
      simp only [ScanCall.Still, pc] at still
      exact still
  all_goals cases halted

end ModAlloc
