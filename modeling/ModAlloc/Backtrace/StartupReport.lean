import ModAlloc.Backtrace.Report
import ModAlloc.Backtrace.StartupRun

/-!
# Reports while the table is being published

`call_sites_report` begins with `ensure_init`, as `record` does, so a report can meet a
table whose statics have been stored in part. One that reads the bucket count before it
has been stored lists nothing. Every other report is what a report from a finished table
is (`ModAlloc.Backtrace.Report`), but for a trace that an early call has put into
bucket 0: it may have the first row and one more (`startup_report`).
-/

namespace ModAlloc

open Interleaving Interleaving.Program

variable {moves moves' : List (Move (Option (List Char) × Call) Nat)} {s₀ s s' : StartState}
  {first mem mem' : StartMemory} {c c' : StartCall} {rows : List CallSiteStats} {row : CallSiteStats}
  {b : Nat}

/-! ## The table only grows -/

theorem Statics.Kept.trans {st st' st'' : Statics} (left : st.Kept st') (right : st'.Kept st'') :
    st.Kept st'' where
  base := fun set => (right.base (by rwa [left.base set])).trans (left.base set)
  buckets := fun set => (right.buckets (by rwa [left.buckets set])).trans (left.buckets set)
  mask := fun set => (right.mask (by rwa [left.mask set])).trans (left.mask set)

/-- Statics that have been stored stay as they are. -/
theorem startKept_of_exec (run : startProgram.Exec anyMove StartState.initial moves s)
    (rest : startProgram.Exec anyMove s moves' s') :
    s.shared.init.statics.Kept s'.shared.init.statics := by
  refine Exec.snocInduction (motive := fun _ (s' : StartState) =>
    s.shared.init.statics.Kept s'.shared.init.statics) (.refl _) ?_ rest
  intro ms s₁ m s₂ sofar _ stepped kept
  refine kept.trans ?_
  have sound := startSound_of_exec (run.append sofar)
  cases m with
  | start arg =>
      obtain ⟨mem, c, started, rfl⟩ := step_start stepped
      obtain ⟨rfl, _⟩ := startProgram_start started
      exact .refl _
  | act i answer =>
      obtain ⟨c, mem, c', atIndex, acted, rfl⟩ := step_act stepped
      have known := sound.calls i c atIndex
      cases startProgram_act acted with
      | @init ic ic' init phase trans =>
          simp only [StartCall.Sound, phase] at known
          exact (trans.forget_leaves sound.memory.init known.1 (Nat.succ_ne_self ic.index)).statics
      | record _ _ | scan _ _ => exact .refl _

/-- A call that is selected stays selected, so tallies go up. -/
theorem startTally_le {ok : StartState → Move (Option (List Char) × Call) Nat → Prop}
    {sel : RecordCall → Bool} {weight : RecordCall → Nat} (rest : startProgram.Exec ok s moves' s')
    (kept : ∀ {st table r table' r'}, RecordCall.Trans st table r table' r' → sel r = true →
      sel r' = true ∧ weight r' = weight r) : s.work.tally sel weight ≤ s'.work.tally sel weight := by
  rw [TableState.tally_procs, TableState.tally_procs, StartState.sum_work, StartState.sum_work]
  refine Exec.sum_le ?_ rest
  intro mem i c answer mem' c' acted
  cases startProgram_act acted with
  | init phase _ =>
      rw [StartCall.share, StartCall.proc, phase]
      exact Nat.zero_le _
  | @record st r r' _ phase trans =>
      rw [StartCall.share, StartCall.proc, phase]
      show (if sel r = true then weight r else 0) ≤ if sel r' = true then weight r' else 0
      by_cases selected : sel r = true
      · obtain ⟨selected', same⟩ := kept trans selected
        rw [if_pos selected, if_pos selected', same]
      · rw [if_neg selected]
        exact Nat.zero_le _
  | scan phase _ =>
      rw [StartCall.share, StartCall.proc, phase]
      exact le_rfl

theorem StartState.bounded_before {ok : StartState → Move (Option (List Char) × Call) Nat → Prop}
    (rest : startProgram.Exec ok s moves' s') (bounded : s'.work.Bounded) : s.work.Bounded := by
  have all : ∀ (t : TableState) weight, (t.calls.map weight).sum = t.tally (fun _ => true) weight := by
    intro t weight
    rw [TableState.tally, List.filter_true]
  have length : ∀ t : TableState, t.calls.length = t.tally (fun _ => true) fun _ => 1 := by
    intro t
    rw [TableState.tally, List.filter_true, List.map_const', List.sum_replicate_nat, Nat.mul_one]
  refine ⟨Nat.lt_of_le_of_lt ?_ bounded.events, Nat.lt_of_le_of_lt ?_ bounded.bytes⟩
  · rw [length, length]
    exact startTally_le rest fun _ _ => ⟨rfl, rfl⟩
  · rw [all, all]
    exact startTally_le rest fun trans _ => ⟨rfl, congrArg BitVec.toNat trans.args.2⟩

/-- Where the events are bounded, no count has wrapped. -/
theorem StartState.Safe.count_eq (safe : s.Safe) (bounded : s.work.Bounded) (b : Nat) :
    (s.work.shared b).count.toNat = s.work.tally (fun r => r.pc.countedSlot = some b) fun _ => 1 := by
  rw [safe.count b]
  exact Nat.mod_eq_of_lt (Nat.lt_of_le_of_lt s.work.tally_le_length bounded.events)

theorem StartState.Safe.bytes_eq (safe : s.Safe) (bounded : s.work.Bounded) (b : Nat) :
    (s.work.shared b).totalBytes.toNat =
      s.work.tally (fun r => r.pc.summedSlot = some b) fun r => r.size.toNat := by
  rw [safe.totalBytes b]
  exact Nat.mod_eq_of_lt (Nat.lt_of_le_of_lt s.work.tally_le_sum bounded.bytes)

theorem startGrows_of_exec (run : startProgram.Exec anyMove StartState.initial moves s)
    (rest : startProgram.Exec anyMove s moves' s') (bounded : s'.work.Bounded) :
    s.work.shared.Grows s'.work.shared := by
  have safe := safe_of_exec run
  have safe' := safe_of_exec (run.append rest)
  have before := StartState.bounded_before rest bounded
  refine ⟨fun b => startPublished_kept run rest, fun b => ?_, fun b => ?_⟩
  · rw [safe.count_eq before b, safe'.count_eq bounded b]
    refine startTally_le rest fun trans counted => ⟨?_, rfl⟩
    simp only [decide_eq_true_eq] at counted ⊢
    exact trans.slots_kept.1 counted
  · rw [safe.bytes_eq before b, safe'.bytes_eq bounded b]
    refine startTally_le rest fun trans summed => ⟨?_, congrArg BitVec.toNat trans.args.2⟩
    simp only [decide_eq_true_eq] at summed ⊢
    exact trans.slots_kept.2 summed

/-- A published bucket has been claimed and counts its claimer's event. -/
theorem StartState.Safe.counted_of_published (safe : s.Safe) (bounded : s.work.Bounded)
    (published : (s.work.shared b).frameCount ≠ 0) :
    (s.work.shared b).hash ≠ 0 ∧ 1 ≤ (s.work.shared b).count.toNat := by
  obtain ⟨r, inWork, pc, held, _⟩ := safe.published b published
  refine ⟨?_, ?_⟩
  · rw [held]
    exact Frames.hash_ne_zero _
  · rw [safe.count_eq bounded b, TableState.tally, List.map_const', List.sum_replicate_nat, Nat.mul_one]
    refine List.length_pos_of_mem (List.mem_filter.mpr ⟨inWork, ?_⟩)
    rw [pc]
    exact decide_eq_true rfl

/-! ## The way to the table -/

/-- The call is on the fast path of `ensure_init`, with no count that was read as zero. -/
def InitCall.Fast (i : InitCall) : Prop :=
  match i.pc with
  | .loadBase | .loadBuckets _ => True
  | .loadMask _ buckets => buckets ≠ 0
  | .returned (.found st) => st.buckets ≠ 0
  | _ => False

/-- A call that begins when the bucket count has been stored stays on the fast path. -/
theorem InitCall.Trans.fast {init init' : InitMemory} {i i' : InitCall}
    (trans : InitCall.Trans init i init' i') (fast : i.Fast) (set : init.statics.base ≠ 0)
    (counted : init.statics.buckets ≠ 0) : i'.Fast := by
  cases trans with
  | seeNull _ null => exact absurd null set
  | seeBase _ _ => trivial
  | loadBuckets _ => exact counted
  | loadMask pc =>
      simp only [InitCall.Fast, pc] at fast
      exact fast
  | allocFails pc | alloc pc _ _ | win pc _ | lose pc _ | storeBuckets pc | storeMask pc
  | freePages pc | spin pc | seeBuckets pc _ | awaitMask pc =>
      simp only [InitCall.Fast, pc] at fast

/-- What is known of a report that began in `first` when the memory is `mem`. -/
def StartCall.Reporting (first mem : StartMemory) (c : StartCall) : Prop :=
  c.call = .report ∧
    match c.phase with
    | .initialising i => first.init.statics.buckets ≠ 0 → i.Fast
    | .running st (.scan q) =>
        (first.init.statics.buckets ≠ 0 → st.buckets ≠ 0) ∧ q.Sound st first.table mem.table
    | .noTable => first.init.statics.buckets = 0
    | .running _ (.record _) | .noFrames => False

theorem StartCall.Reporting.mono (grows : mem.table.Grows mem'.table)
    (reporting : c.Reporting first mem) : c.Reporting first mem' := by
  obtain ⟨call, known⟩ := reporting
  refine ⟨call, ?_⟩
  split at known
  case h_1 => exact known
  case h_2 => exact ⟨known.1, known.2.mono grows⟩
  case h_3 => exact known
  case h_4 | h_5 => exact known

/-- **A step of the report.** -/
theorem StartCall.Trans.reporting (trans : StartCall.Trans mem c mem' c') (sound : c.Sound mem)
    (stored : first.init.statics.buckets ≠ 0 →
      mem.init.statics.base ≠ 0 ∧ mem.init.statics.buckets ≠ 0)
    (grows : first.table.Grows mem.table)
    (counted : ∀ b, (mem.table b).frameCount ≠ 0 →
      (mem.table b).hash ≠ 0 ∧ 1 ≤ (mem.table b).count.toNat)
    (reporting : c.Reporting first mem) : c'.Reporting first mem' := by
  obtain ⟨call, known⟩ := reporting
  cases trans with
  | @init i i' init phase trans =>
      simp only [phase] at known
      have fast : first.init.statics.buckets ≠ 0 → i'.Fast := fun begun =>
        trans.fast (known begun) (stored begun).1 (stored begun).2
      rcases StartCall.resume_cases c.call i' with same | ⟨gone, pc⟩ | ⟨outcome, st, pc, result, runs⟩
      · rw [same]
        exact ⟨call, fast⟩
      · rw [gone]
        refine ⟨call, ?_⟩
        by_contra begun
        have := fast begun
        simp only [InitCall.Fast, pc] at this
      · rw [runs, call]
        refine ⟨rfl, fun begun => ?_, ScanCall.sound_loop (Nat.zero_le _) Rows.nil⟩
        have := fast begun
        cases outcome with
        | found st' =>
            cases result
            simpa only [InitCall.Fast, pc] using this
        | won st' | lost st' => simp only [InitCall.Fast, pc] at this
        | failed => cases result
  | record phase _ => simp only [phase] at known
  | @scan st q q' phase trans =>
      simp only [StartCall.Sound, phase] at sound
      simp only [phase] at known
      rw [sound.1.base, ← StartMemory.table] at trans
      exact ⟨call, known.1, trans.sound grows counted known.2⟩

/-- What a report has returned: the rows of its scan, or none where there is no table. -/
def StartCall.reported (c : StartCall) : Option (List CallSiteStats) :=
  match c.call, c.phase with
  | .report, .running _ (.scan ⟨rows, .returned⟩) => some rows
  | .report, .noTable => some []
  | _, _ => none

/-- A report that begins in `s₀` has ended in `s` with these rows. -/
def StartState.Reports (s₀ s : StartState) (rows : List CallSiteStats) : Prop :=
  ∃ env s₁ moves c, startProgram.step s₀ (.start (env, .report)) = some s₁ ∧
    startProgram.Exec anyMove s₁ moves s ∧ s.procs[s₀.procs.length]? = some c ∧
      c.reported = some rows

theorem StartState.Reports.exec (report : s₀.Reports s rows) :
    ∃ moves, startProgram.Exec anyMove s₀ moves s := by
  obtain ⟨env, s₁, moves, c, started, rest, _⟩ := report
  exact ⟨.start (env, .report) :: moves, .cons trivial started rest⟩

theorem reporting_of_exec (run : startProgram.Exec anyMove StartState.initial moves s₀)
    {env : Option (List Char)} {s₁ : StartState}
    (started : startProgram.step s₀ (.start (env, .report)) = some s₁)
    (rest : startProgram.Exec anyMove s₁ moves' s) (bounded : s.work.Bounded) :
    ∃ c, s.procs[s₀.procs.length]? = some c ∧ c.Reporting s₀.shared s.shared := by
  have begins : anyMove s₀ (.start (env, .report) : Move (Option (List Char) × Call) Nat) := trivial
  have run₁ := run.snoc begins started
  refine Exec.snocInduction (motive := fun _ (s : StartState) => s.work.Bounded →
    ∃ c, s.procs[s₀.procs.length]? = some c ∧ c.Reporting s₀.shared s.shared) ?_ ?_ rest bounded
  · intro _
    obtain ⟨mem, c, begun, rfl⟩ := step_start started
    obtain ⟨rfl, rfl⟩ := startProgram_start begun
    exact ⟨_, List.getElem?_concat_length, rfl, fun _ => trivial⟩
  · intro ms s' m s'' sofar cond stepped ih bounded
    have one : startProgram.Exec anyMove s' [m] s'' := .cons cond stepped (.nil _)
    have before := StartState.bounded_before one bounded
    have reached := run₁.append sofar
    have between : startProgram.Exec anyMove s₀ _ s' := .cons begins started sofar
    obtain ⟨c, atIndex, reporting⟩ := ih before
    rcases step_getElem? stepped atIndex with ⟨kept, _⟩ | ⟨answer, c', _, acted, kept⟩
    · exact ⟨c, kept, reporting.mono (startGrows_of_exec reached one bounded)⟩
    · have sound := startSound_of_exec reached
      refine ⟨c', kept, (startProgram_act acted).reporting (sound.calls _ c atIndex) (fun begun => ?_)
        (startGrows_of_exec run between before)
        (fun b published => (safe_of_exec reached).counted_of_published before published) reporting⟩
      have counted : s'.shared.init.statics.buckets ≠ 0 := by
        rwa [(startKept_of_exec run between).buckets begun]
      refine ⟨fun null => counted ?_, counted⟩
      rw [(sound.memory.init.unset null).1]

/-- **What a report consists of**: copies of all buckets that were published when it began,
unless it read the bucket count before it had been stored. -/
theorem rows_of_startReports (run : startProgram.Exec anyMove StartState.initial moves s₀)
    (report : s₀.Reports s rows) (bounded : s.work.Bounded) :
    (rows = [] ∧ s₀.shared.init.statics.buckets = 0) ∨
      (s.shared.init.statics.buckets ≠ 0 ∧
        Rows s₀.work.shared s.work.shared s.shared.init.capacity rows) := by
  obtain ⟨between, rest₀⟩ := report.exec
  obtain ⟨env, s₁, moves', c, started, rest, atIndex, ended⟩ := report
  obtain ⟨c', at_c, call, known⟩ := reporting_of_exec run started rest bounded
  cases at_c.symm.trans atIndex
  have sound := startSound_of_exec (run.append rest₀)
  have read := sound.calls _ c atIndex
  unfold StartCall.reported at ended
  split at ended
  case h_1 st out _ phase =>
      cases ended
      simp only [phase] at known
      simp only [StartCall.Sound, phase] at read
      by_cases none : st.buckets = 0
      · refine .inl ⟨?_, by_contra fun begun => known.1 begun none⟩
        obtain ⟨bs, _, below, _, copies⟩ := known.2
        cases copies with
        | nil => rfl
        | @cons b _ _ _ _ _ =>
            have := below b List.mem_cons_self
            omega
      · obtain ⟨_, _, _, _, buckets, _⟩ := sound.memory.init.table read.1.nonnull
        have same := read.1.buckets.resolve_left none
        have stored : s.shared.init.statics.buckets ≠ 0 := same ▸ none
        refine .inr ⟨stored, ?_⟩
        rw [← buckets.resolve_left stored, ← same]
        exact known.2
  case h_2 phase =>
      cases ended
      simp only [phase] at known
      exact .inl ⟨rfl, known⟩
  case h_3 => cases ended

/-! ## What the rows say -/

/-- The row of bucket `b` in a report from `s₀` to `s`. It has the frames of the one call
that claimed the bucket, and it counts events of that trace: those that had been added
when the report began, and no others than had been added when it ended. -/
structure CallSiteStats.FromBucket (s₀ s : StartState) (b : Nat) (row : CallSiteStats) : Prop where
  claimer : ∃ (i : Nat) (c : StartCall) (st : Statics) (r : RecordCall), s.procs[i]? = some c ∧
    c.call = .record r.frames r.size ∧ c.phase = .running st (.record r) ∧
    r.pc = .returned (.claimed b) ∧ row.frameCount = r.frames.count ∧ row.trace = r.frames.trace ∧
    ∀ (j : Nat) (d : StartCall) (st' : Statics) (q : RecordCall), s.procs[j]? = some d →
      d.phase = .running st' (.record q) → q.pc.claimedSlot = some b → j = i
  frames : 1 ≤ row.frameCount.val ∧
    ∀ j (inRange : j < 8), row.frameCount.val ≤ j → row.frames[j] = 0
  own : ∀ r ∈ s.work.calls, r.pc.countedSlot = some b → r.hash = row.hash
  count : 1 ≤ row.count.toNat ∧
    s₀.work.tally (fun r => r.pc.countedSlot = some b) (fun _ => 1) ≤ row.count.toNat ∧
    row.count.toNat ≤ s.work.tally (fun r => r.pc.countedSlot = some b) fun _ => 1
  bytes : s₀.work.tally (fun r => r.pc.summedSlot = some b) (fun r => r.size.toNat) ≤
      row.totalBytes.toNat ∧
    row.totalBytes.toNat ≤ s.work.tally (fun r => r.pc.summedSlot = some b) fun r => r.size.toNat

theorem RowOf.hash_eq (safe : s.Safe) {table : Memory} (copy : RowOf table s.work.shared b row) :
    (s.work.shared b).hash = row.hash := by
  obtain ⟨r, _, _, held, frames, count⟩ := safe.published b copy.published
  rw [held, (copy.copies.frames_eq frames count).2.2]

/-- **A copy of a bucket says what it should.** -/
theorem RowOf.fromBucket (run : startProgram.Exec anyMove StartState.initial moves s₀)
    (rest : startProgram.Exec anyMove s₀ moves' s) (bounded : s.work.Bounded)
    (copy : RowOf s₀.work.shared s.work.shared b row) : row.FromBucket s₀ s b := by
  have run' := run.append rest
  have safe₀ := safe_of_exec run
  have safe := safe_of_exec run'
  have bounded₀ := StartState.bounded_before rest bounded
  obtain ⟨r, inWork, pc, _, frames, count⟩ := safe.published b copy.published
  obtain ⟨i, c, st, atIndex, phase⟩ := StartState.mem_work.mp inWork
  obtain ⟨length, same, _⟩ := copy.copies.frames_eq frames count
  have framed := framed_of_exec run' atIndex
  simp only [StartCall.Framed, phase] at framed
  have claimed : r.pc.claimedSlot = some b := by
    rw [pc]
    rfl
  refine ⟨⟨i, c, st, r, atIndex, framed.1, phase, pc, length, ?_, ?_⟩, ⟨?_, ?_⟩, ?_,
    ⟨copy.counted, ?_, ?_⟩, ?_, ?_⟩
  · exact CallSiteStats.trace_eq length same
  · intro j d st' q at_j phase' claimed'
    exact start_claimer_unique run' at_j phase' atIndex phase claimed' claimed
  · rw [length]
    exact framed.2
  · intro j inRange past
    have zero : (firstFrames r.frames.frames r.frames.count)[j] = 0 := by
      rw [getElem_firstFrames, if_neg (by rw [← length]; omega)]
    simpa only [same] using zero
  · intro q inWork' counted
    rw [← safe.own q inWork' b counted]
    exact copy.hash_eq safe
  · rw [← safe₀.count_eq bounded₀]
    exact copy.count_ge
  · rw [← safe.count_eq bounded]
    exact copy.count_le
  · rw [← safe₀.bytes_eq bounded₀]
    exact copy.bytes_ge
  · rw [← safe.bytes_eq bounded]
    exact copy.bytes_le

/-- A published bucket is one of the table. -/
theorem StartState.Safe.published_lt (safe : s.Safe) (published : (s.work.shared b).frameCount ≠ 0) :
    b < s.shared.init.capacity := by
  obtain ⟨r, inWork, pc, _⟩ := safe.published b published
  obtain ⟨i, c, st, atIndex, phase⟩ := StartState.mem_work.mp inWork
  rcases safe.returned i c st r _ atIndex phase pc with ⟨b', inRange, _, counted, _⟩ | ⟨dropped, _⟩
  · rw [pc] at counted
    cases counted
    exact inRange
  · cases dropped

/-- The rows after the first have different traces. -/
theorem Rows.tail_hash_ne (safe : s.Safe) {table : Memory} {n : Nat}
    (listed : Rows table s.work.shared n rows) :
    rows.tail.Pairwise fun x y => x.hash ≠ y.hash := by
  obtain ⟨bs, sorted, _, _, copies⟩ := listed
  cases copies with
  | nil => exact .nil
  | @cons b row bs rows _ copies =>
      obtain ⟨after, sorted⟩ := List.pairwise_cons.mp sorted
      have positive : bs.Pairwise fun x y => 0 < x ∧ x < y :=
        sorted.imp_of_mem fun inBs _ lt => ⟨Nat.zero_lt_of_lt (after _ inBs), lt⟩
      refine pairwise_of_forall₂ ?_ copies positive
      intro x y row row' copy copy' ⟨pos, lt⟩ same
      have claimed : (s.work.shared x).hash ≠ 0 := by
        rw [copy.hash_eq safe]
        exact hashFrames_ne_zero _ _
      have := safe.unique x y pos (safe.published_lt copy.published) (Nat.zero_lt_of_lt lt)
        (safe.published_lt copy'.published) claimed
        ((copy.hash_eq safe).trans (same.trans (copy'.hash_eq safe).symm))
      omega

/-- What a call has counted is in the table. -/
theorem StartState.Sound.counted_lt (sound : s.Sound) {r : RecordCall} (inWork : r ∈ s.work.calls)
    (counted : r.pc.countedSlot = some b) : b < s.shared.init.capacity := by
  obtain ⟨i, c, st, atIndex, phase⟩ := StartState.mem_work.mp inWork
  have known := sound.calls i c atIndex
  simp only [StartCall.Sound, phase] at known
  obtain ⟨_, size, pos⟩ := known.1.view sound.memory.init
  have := (RecordCall.Sound.counted known.2 counted).1
  rcases size with one | whole <;> omega

/-- What the rows add up to is no more than what the calls bring. -/
theorem Rows.sum_le (sound : s.Sound) {table : Memory} (slot : RecordPc → Option Nat)
    (weight : RecordCall → Nat) (value : CallSiteStats → Nat)
    (counted : ∀ {pc b}, slot pc = some b → RecordPc.countedSlot pc = some b)
    (le : ∀ b row, RowOf table s.work.shared b row →
      value row ≤ s.work.tally (fun r => slot r.pc = some b) weight)
    (listed : Rows table s.work.shared s.shared.init.capacity rows) :
    (rows.map value).sum ≤ (s.work.calls.map weight).sum := by
  obtain ⟨bs, sorted, below, _, copies⟩ := listed
  have subset : bs.toFinset ⊆ Finset.range s.shared.init.capacity := fun b inBs =>
    Finset.mem_range.mpr (below b (List.mem_toFinset.mp inBs))
  calc (rows.map value).sum
      ≤ (bs.map fun b => s.work.tally (fun r => slot r.pc = some b) weight).sum :=
        (List.forall₂_map_left_iff.mpr (List.forall₂_map_right_iff.mpr
          (copies.flip.imp fun row b copy => le b row copy))).sum_le_sum
    _ = ∑ b ∈ bs.toFinset, s.work.tally (fun r => slot r.pc = some b) weight :=
        (List.sum_toFinset _ (sorted.imp Nat.ne_of_lt)).symm
    _ ≤ ∑ b ∈ Finset.range s.shared.init.capacity,
          s.work.tally (fun r => slot r.pc = some b) weight := Finset.sum_le_sum_of_subset subset
    _ = s.work.tally (fun r => (slot r.pc).isSome) weight :=
        sum_slots _ _ fun r inWork b held => sound.counted_lt inWork (counted held)
    _ ≤ (s.work.calls.map weight).sum := s.work.tally_le_sum

/-- A bucket that an earlier report has listed is listed again. -/
theorem RowOf.again {table : Memory} {s₁ s₂ : StartState} {n : Nat} {rows' : List CallSiteStats}
    (grows : s.work.shared.Grows s₁.work.shared) (grows' : s₁.work.shared.Grows s₂.work.shared)
    (listed : Rows s₁.work.shared s₂.work.shared n rows') (inRange : b < n)
    (copy : RowOf table s.work.shared b row) :
    ∃ row' ∈ rows', row'.frames = row.frames ∧ row'.frameCount = row.frameCount ∧
      row.count.toNat ≤ row'.count.toNat ∧ row.totalBytes.toNat ≤ row'.totalBytes.toNat := by
  obtain ⟨bs, _, _, complete, copies⟩ := listed
  obtain ⟨frames, count⟩ := grows.published b copy.published
  have published : (s₁.work.shared b).frameCount ≠ 0 := by
    rw [count]
    exact copy.published
  obtain ⟨frames', count'⟩ := grows'.published b published
  obtain ⟨row', inRows, copy'⟩ := exists_mem_of_forall₂ copies.flip (complete b inRange published)
  have length : row'.frameCount = row.frameCount := by
    rw [copy'.frameCount, copy.frameCount, count', count]
  refine ⟨row', inRows, ?_, length, ?_, ?_⟩
  · rw [copy'.frames, copy.frames, frames', frames, length]
  · exact Nat.le_trans copy.count_le (Nat.le_trans (grows.count b) copy'.count_ge)
  · exact Nat.le_trans copy.bytes_le (Nat.le_trans (grows.totalBytes b) copy'.bytes_ge)

/-- **Reports from a table that is being published.** Every row is that of one bucket, and all
buckets published when the report began are listed, unless it lists none because the bucket
count had not been stored by then. A trace has one row, or the first row and one more; the
rows count no event twice; and a later report shows each row again. -/
theorem startup_report (run : startProgram.Exec anyMove StartState.initial moves s₀)
    (report : s₀.Reports s rows) (bounded : s.work.Bounded) :
    (∃ bs : List Nat, bs.Pairwise (· < ·) ∧
      List.Forall₂ (CallSiteStats.FromBucket s₀ s) bs rows ∧
      (rows ≠ [] ∨ s₀.shared.init.statics.buckets ≠ 0 →
        ∀ b, (s₀.work.shared b).frameCount ≠ 0 → b ∈ bs)) ∧
    (rows.tail.Pairwise fun x y => x.hash ≠ y.hash) ∧
    (rows.map fun row => row.count.toNat).sum ≤ s.work.calls.length ∧
    (rows.map fun row => row.totalBytes.toNat).sum ≤ (s.work.calls.map fun r => r.size.toNat).sum ∧
    ∀ moves' (s₁ s₂ : StartState) rows', startProgram.Exec anyMove s moves' s₁ →
      s₁.Reports s₂ rows' → s₂.work.Bounded → ∀ row ∈ rows, ∃ row' ∈ rows',
        row'.frames = row.frames ∧ row'.frameCount = row.frameCount ∧
        row.count.toNat ≤ row'.count.toNat ∧ row.totalBytes.toNat ≤ row'.totalBytes.toNat := by
  obtain ⟨between, rest⟩ := report.exec
  have run' := run.append rest
  have safe := safe_of_exec run'
  rcases rows_of_startReports run report bounded with ⟨rfl, unset⟩ | ⟨stored, listed⟩
  · refine ⟨⟨[], .nil, .nil, ?_⟩, .nil, Nat.zero_le _, Nat.zero_le _, fun _ _ _ _ _ _ _ _ none => ?_⟩
    · rintro (some | begun)
      · exact absurd rfl some
      · exact absurd unset begun
    · cases none
  have length : (s.work.calls.map fun _ => 1).sum = s.work.calls.length := by
    rw [List.map_const', List.sum_replicate_nat, Nat.mul_one]
  have sound := startSound_of_exec run'
  have counts := listed.sum_le sound RecordPc.countedSlot (fun _ => 1) (fun row => row.count.toNat) id
    fun b row copy => copy.count_le.trans_eq (safe.count_eq bounded b)
  have bytes := listed.sum_le sound RecordPc.summedSlot (fun r => r.size.toNat)
    (fun row => row.totalBytes.toNat) RecordPc.countedSlot_of_summedSlot
    fun b row copy => copy.bytes_le.trans_eq (safe.bytes_eq bounded b)
  refine ⟨?_, listed.tail_hash_ne safe, length ▸ counts, bytes, ?_⟩
  · obtain ⟨bs, sorted, _, complete, copies⟩ := listed
    refine ⟨bs, sorted, copies.imp fun b row copy => copy.fromBucket run rest bounded, fun _ b published => ?_⟩
    refine complete b (safe.published_lt ?_) published
    rw [((startGrows_of_exec run rest bounded).published b published).2]
    exact published
  · intro moves' s₁ s₂ rows' later report' bounded' row inRows
    obtain ⟨bs, _, _, _, copies⟩ := listed
    obtain ⟨b, _, copy⟩ := exists_mem_of_forall₂ copies inRows
    obtain ⟨between', rest'⟩ := report'.exec
    have run₁ := run'.append later
    have grows := startGrows_of_exec run' later (StartState.bounded_before rest' bounded')
    have grows' := startGrows_of_exec run₁ rest' bounded'
    have stored₁ : s₁.shared.init.statics.buckets ≠ 0 := by
      rwa [(startKept_of_exec run' later).buckets stored]
    rcases rows_of_startReports run₁ report' bounded' with ⟨_, unset⟩ | ⟨_, listed'⟩
    · exact absurd unset stored₁
    · refine copy.again grows grows' listed' ((safe_of_exec (run₁.append rest')).published_lt ?_)
      have published := (grows.published b copy.published).2
      rw [(grows'.published b (by rw [published]; exact copy.published)).2, published]
      exact copy.published

/-! The report of the table in which an early call has put the trace into bucket 0. -/

def strayBegun : StartState :=
  (startProgram.step strayEnd (.start (none, .report))).get rfl

def strayReported : StartState :=
  (startProgram.run anyMove strayBegun (List.replicate 75 (.act 2 0))).get (by decide +kernel)

def strayRow (size : U64) : CallSiteStats := ⟨raceFrames.frames, raceFrames.count, 1, size⟩

theorem startup_report_stray : ∃ bs : List Nat, bs.Pairwise (· < ·) ∧ 0 ∈ bs ∧ 37 ∈ bs ∧
    List.Forall₂ (CallSiteStats.FromBucket strayEnd strayReported) bs [strayRow 20, strayRow 10] := by
  have run : startProgram.Exec anyMove StartState.initial strayMoves strayEnd :=
    Exec.of_run (Option.some_get (by decide)).symm
  have rest : startProgram.Exec anyMove strayBegun _ strayReported :=
    Exec.of_run (Option.some_get (by decide +kernel)).symm
  have ended : strayReported.procs[2]?.bind StartCall.reported = some [strayRow 20, strayRow 10] := by
    decide +kernel
  obtain ⟨c, atIndex, rows⟩ := Option.bind_eq_some_iff.mp ended
  have report : strayEnd.Reports strayReported [strayRow 20, strayRow 10] :=
    ⟨none, strayBegun, _, c, rfl, rest, atIndex, rows⟩
  have bounded : strayReported.work.Bounded := ⟨by decide +kernel, by decide +kernel⟩
  have published : (strayEnd.work.shared 0).frameCount ≠ 0 ∧ (strayEnd.work.shared 37).frameCount ≠ 0 := by
    decide +kernel
  obtain ⟨⟨bs, sorted, copies, listed⟩, _⟩ := startup_report run report bounded
  have all := listed (.inl (List.cons_ne_nil _ _))
  exact ⟨bs, sorted, all 0 published.1, all 37 published.2, copies⟩

end ModAlloc
