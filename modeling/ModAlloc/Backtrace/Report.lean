import ModAlloc.Backtrace.Published

/-!
# Reports are never torn and never go backwards

A scan walks the buckets in order while `record` calls go on. Against the memory
at its start and the memory now, the scan's rows are copies of published
buckets, one for each bucket that was published at the start (`Rows`). From that:
every row is the trace of the call that claimed its bucket, counts lie between
the events that had returned when the scan began and those that had begun when
it ended, and a later report shows each row again.
-/

namespace ModAlloc

open Interleaving Interleaving.Program

variable {st : Statics} {env : Option (List Char)} {first mem mem' : Memory} {r r' : ScanCall}
  {b i : Nat} {row : CallSiteStats} {out : List CallSiteStats}

/-! ## Rows as copies of buckets -/

/-- The row is a copy of bucket `b`, its counts taken at some moment between
`first` and `mem`. -/
structure RowOf (first mem : Memory) (b : Nat) (row : CallSiteStats) : Prop where
  published : (mem b).frameCount ≠ 0
  frameCount : row.frameCount = ScanCall.clampFrameCount (mem b).frameCount
  frames : row.frames = firstFrames (mem b).sampleFrames row.frameCount
  counted : 1 ≤ row.count.toNat
  count_ge : (first b).count.toNat ≤ row.count.toNat
  count_le : row.count.toNat ≤ (mem b).count.toNat
  bytes_ge : (first b).totalBytes.toNat ≤ row.totalBytes.toNat
  bytes_le : row.totalBytes.toNat ≤ (mem b).totalBytes.toNat

/-- The frames of the row are those of bucket `b`. -/
structure CallSiteStats.Copies (mem : Memory) (b : Nat) (row : CallSiteStats) : Prop where
  published : (mem b).frameCount ≠ 0
  frameCount : row.frameCount = ScanCall.clampFrameCount (mem b).frameCount
  frames : row.frames = firstFrames (mem b).sampleFrames row.frameCount

theorem RowOf.copies (copy : RowOf first mem b row) : row.Copies mem b :=
  ⟨copy.published, copy.frameCount, copy.frames⟩

theorem RowOf.mono (grows : mem.Grows mem') (copy : RowOf first mem b row) :
    RowOf first mem' b row := by
  obtain ⟨frames, count⟩ := grows.published b copy.published
  exact { copy with
    published := by rw [count]; exact copy.published
    frameCount := by rw [count]; exact copy.frameCount
    frames := by rw [frames]; exact copy.frames
    count_le := Nat.le_trans copy.count_le (grows.count b)
    bytes_le := Nat.le_trans copy.bytes_le (grows.totalBytes b) }

/-- The rows are copies of buckets below `i`, in order, among them every bucket
that was published in `first`. -/
def Rows (first mem : Memory) (i : Nat) (out : List CallSiteStats) : Prop :=
  ∃ bs : List Nat, bs.Pairwise (· < ·) ∧ (∀ b ∈ bs, b < i) ∧
    (∀ b, b < i → (first b).frameCount ≠ 0 → b ∈ bs) ∧ List.Forall₂ (RowOf first mem) bs out

theorem Rows.nil : Rows first mem 0 [] :=
  ⟨[], .nil, fun _ mem => (by cases mem), fun _ lt => absurd lt (Nat.not_lt_zero _), .nil⟩

theorem Rows.mono (grows : mem.Grows mem') (rows : Rows first mem i out) :
    Rows first mem' i out := by
  obtain ⟨bs, sorted, below, complete, copies⟩ := rows
  exact ⟨bs, sorted, below, complete, copies.imp fun _ _ copy => copy.mono grows⟩

/-- Passing over a bucket that was not published at the start. -/
theorem Rows.skip (rows : Rows first mem i out) (unpublished : (first i).frameCount = 0) :
    Rows first mem (i + 1) out := by
  obtain ⟨bs, sorted, below, complete, copies⟩ := rows
  refine ⟨bs, sorted, fun b inBs => Nat.lt_succ_of_lt (below b inBs), fun b lt published => ?_,
    copies⟩
  rcases Nat.lt_succ_iff_lt_or_eq.mp lt with earlier | rfl
  · exact complete b earlier published
  · exact absurd unpublished published

/-- Pushing the copy of the bucket at hand. -/
theorem Rows.push (rows : Rows first mem i out) (copy : RowOf first mem i row) :
    Rows first mem (i + 1) (out ++ [row]) := by
  obtain ⟨bs, sorted, below, complete, copies⟩ := rows
  refine ⟨bs ++ [i], ?_, fun b inBs => ?_, fun b lt published => ?_, ?_⟩
  · refine List.pairwise_append.mpr ⟨sorted, List.pairwise_singleton _ _, fun b inBs c eq => ?_⟩
    rw [List.mem_singleton.mp eq]
    exact below b inBs
  · rcases List.mem_append.mp inBs with earlier | here
    · exact Nat.lt_succ_of_lt (below b earlier)
    · rw [List.mem_singleton.mp here]
      exact Nat.lt_succ_self _
  · rcases Nat.lt_succ_iff_lt_or_eq.mp lt with earlier | rfl
    · exact List.mem_append_left _ (complete b earlier published)
    · exact List.mem_append_right _ (List.mem_singleton_self _)
  · exact List.rel_append copies (.cons copy .nil)

/-- There are no more rows than buckets. -/
theorem Rows.length_le (rows : Rows first mem i out) : out.length ≤ i := by
  obtain ⟨bs, sorted, below, _, copies⟩ := rows
  rw [← copies.length_eq, ← List.length_range (n := i)]
  exact (List.subperm_of_subset (sorted.imp Nat.ne_of_lt)
    fun b inBs => List.mem_range.mpr (below b inBs)).length_le

/-! ## The scan -/

/-- The bucket at hand has been seen published, with `n` frames. -/
def ScanCall.Seen (st : Statics) (first mem : Memory) (r : ScanCall) (i : Nat) (n : Fin 9) : Prop :=
  i < st.buckets ∧ Rows first mem i r.out ∧ (mem i).frameCount ≠ 0 ∧
    n = clampFrameCount (mem i).frameCount

/-- What a scan that began in `first` knows when the memory is `mem`. -/
def ScanCall.Sound (st : Statics) (first mem : Memory) (r : ScanCall) : Prop :=
  match r.pc with
  | .loadBase | .loadBuckets | .loadMask => r.out = []
  | .loadHash i | .loadFrameCount i => i < st.buckets ∧ Rows first mem i r.out
  | .loadFrame i n j frames =>
      r.Seen st first mem i n ∧ j.val < n.val ∧ frames = firstFrames (mem i).sampleFrames j
  | .loadCount i n frames =>
      r.Seen st first mem i n ∧ frames = firstFrames (mem i).sampleFrames n
  | .loadBytes i n frames count =>
      r.Seen st first mem i n ∧ frames = firstFrames (mem i).sampleFrames n ∧
        1 ≤ count.toNat ∧ (first i).count.toNat ≤ count.toNat ∧
        count.toNat ≤ (mem i).count.toNat
  | .returned => Rows first mem st.buckets r.out

theorem ScanCall.Seen.mono {n : Fin 9} (grows : mem.Grows mem') (seen : r.Seen st first mem i n) :
    r.Seen st first mem' i n ∧ (mem' i).sampleFrames = (mem i).sampleFrames := by
  obtain ⟨inRange, rows, published, count⟩ := seen
  obtain ⟨frames, same⟩ := grows.published i published
  refine ⟨⟨inRange, rows.mono grows, ?_, ?_⟩, frames⟩
  · rw [same]
    exact published
  · rw [same]
    exact count

/-- What a scan knows survives the steps of the others. -/
theorem ScanCall.Sound.mono (grows : mem.Grows mem') (sound : r.Sound st first mem) :
    r.Sound st first mem' := by
  unfold ScanCall.Sound at sound ⊢
  split at sound
  case h_1 | h_2 | h_3 => exact sound
  case h_4 | h_5 => exact ⟨sound.1, sound.2.mono grows⟩
  case h_6 =>
    obtain ⟨seen, inRange, frames⟩ := sound
    obtain ⟨seen', same⟩ := seen.mono grows
    exact ⟨seen', inRange, by rw [same]; exact frames⟩
  case h_7 =>
    obtain ⟨seen, frames⟩ := sound
    obtain ⟨seen', same⟩ := seen.mono grows
    exact ⟨seen', by rw [same]; exact frames⟩
  case h_8 i n _ _ _ =>
    obtain ⟨seen, frames, counted, ge, le⟩ := sound
    obtain ⟨seen', same⟩ := seen.mono grows
    exact ⟨seen', by rw [same]; exact frames, counted, ge, Nat.le_trans le (grows.count i)⟩
  case h_9 => exact sound.mono grows

theorem ScanCall.sound_loop (inRange : i ≤ st.buckets) (rows : Rows first mem i out) :
    ScanCall.Sound st first mem { out, pc := loop st i } := by
  unfold loop
  split
  · exact ⟨‹_›, rows⟩
  · obtain rfl : i = st.buckets := by omega
    exact rows

/-- **A step keeps the scan sound**, in a memory where published buckets have been
claimed and count an event. -/
theorem ScanCall.Trans.sound (trans : ScanCall.Trans st mem r r') (grows : first.Grows mem)
    (counted : ∀ b, (mem b).frameCount ≠ 0 → (mem b).hash ≠ 0 ∧ 1 ≤ (mem b).count.toNat)
    (sound : r.Sound st first mem) : r'.Sound st first mem := by
  have unpublished : ∀ {b}, (mem b).frameCount = 0 → (first b).frameCount = 0 := by
    intro b now
    by_contra published
    exact published ((grows.published b published).2.symm.trans now)
  cases trans with
  | loadBase pc _ | loadBuckets pc =>
      simp only [ScanCall.Sound, pc] at sound
      exact sound
  | loadMask pc =>
      simp only [ScanCall.Sound, pc] at sound
      exact ScanCall.sound_loop (Nat.zero_le _) (sound ▸ Rows.nil)
  | @skipFree i pc free =>
      simp only [ScanCall.Sound, pc] at sound
      refine ScanCall.sound_loop sound.1 (sound.2.skip (unpublished ?_))
      by_contra published
      exact (counted i published).1 free
  | seeHash pc _ =>
      simp only [ScanCall.Sound, pc] at sound
      exact sound
  | skipUnpublished pc unset =>
      simp only [ScanCall.Sound, pc] at sound
      exact ScanCall.sound_loop sound.1 (sound.2.skip (unpublished unset))
  | @seePublished i pc published =>
      simp only [ScanCall.Sound, pc] at sound
      refine ⟨⟨sound.1, sound.2, published, rfl⟩, ?_, (firstFrames_zero _).symm⟩
      have : (mem i).frameCount.toNat ≠ 0 := by
        intro zero
        exact published (BitVec.eq_of_toNat_eq zero)
      simp only [clampFrameCount]
      omega
  | @loadFrame i n j frames more pc =>
      simp only [ScanCall.Sound, pc] at sound
      obtain ⟨seen, _, rfl⟩ := sound
      exact ⟨seen, more, firstFrames_set _ j.isLt⟩
  | @loadLastFrame i n j frames last pc =>
      simp only [ScanCall.Sound, pc] at sound
      obtain ⟨seen, inRange, rfl⟩ := sound
      have full : n.val = j.val + 1 := by omega
      refine ⟨seen, ?_⟩
      rw [full]
      exact firstFrames_set _ j.isLt
  | @loadCount i n frames pc =>
      simp only [ScanCall.Sound, pc] at sound
      obtain ⟨seen, frames⟩ := sound
      exact ⟨seen, frames, (counted i seen.2.2.1).2, grows.count i, Nat.le_refl _⟩
  | @loadBytes i n frames count pc =>
      simp only [ScanCall.Sound, pc] at sound
      obtain ⟨⟨inRange, rows, published, count⟩, frames, atLeast, ge, le⟩ := sound
      exact ScanCall.sound_loop inRange (rows.push ⟨published, count, frames, atLeast, ge, le,
        grows.totalBytes i, Nat.le_refl _⟩)

/-! ## A whole report -/

/-- The hash of the trace in a row. -/
def CallSiteStats.hash (row : CallSiteStats) : U64 := hashFrames row.frames row.frameCount

/-- The events of hash `h` whose `record` call has returned. -/
def TableState.returnedEvents (s : TableState) (h : U64) : List RecordCall :=
  (s.events h).filter fun c => c.pc.isReturned

/-- A report that begins in `s₀` has ended in `s` with these rows. -/
def TableState.Reports (st : Statics) (s₀ s : TableState) (rows : List CallSiteStats) : Prop :=
  ∃ s₁ moves, (tableProgram st).step s₀ (.start .report) = some s₁ ∧
    (tableProgram st).Exec withFrames s₁ moves s ∧
    s.procs[s₀.procs.length]? = some (.scan ⟨rows, .returned⟩)

section Runs

variable {moves moves' : List (Move Call Unit)} {s₀ s₁ s : TableState} (init : st.Initialised env)
  (run : (tableProgram st).Exec withFrames TableState.empty moves s₀)

include init run

theorem scanSound_of_exec (started : (tableProgram st).step s₀ (.start .report) = some s₁)
    (rest : (tableProgram st).Exec withFrames s₁ moves' s) (bounded : s.Bounded) :
    s₀.shared.Grows s.shared ∧
      ∃ r, s.procs[s₀.procs.length]? = some (.scan r) ∧ r.Sound st s₀.shared s.shared := by
  have begins : withFrames s₀ (.start .report) := trivial
  have run₁ := run.snoc begins started
  refine Exec.snocInduction (motive := fun _ (s : TableState) => s.Bounded → s₀.shared.Grows s.shared ∧
    ∃ r, s.procs[s₀.procs.length]? = some (.scan r) ∧ r.Sound st s₀.shared s.shared) ?_ ?_ rest
    bounded
  · intro _
    obtain ⟨mem, p, eq, rfl⟩ := step_start started
    obtain ⟨rfl, rfl⟩ := tableProgram_start eq
    exact ⟨.refl _, .init, List.getElem?_concat_length, rfl⟩
  · intro ms s' m s'' sofar cond stepped ih bounded
    have one : (tableProgram st).Exec withFrames s' [m] s'' := .cons cond stepped (.nil _)
    have before := bounded.before one
    have reached := run₁.append sofar
    obtain ⟨grown, r, atIndex, sound⟩ := ih before
    have grows := grows_of_exec init reached one bounded
    have grown' := grows_of_exec init run (.cons begins started (sofar.append one)) bounded
    refine ⟨grown', ?_⟩
    rcases step_getElem? stepped atIndex with ⟨kept, _⟩ | ⟨a, p', _, acted, kept⟩
    · exact ⟨r, kept, sound.mono grows⟩
    · rcases tableProgram_act acted with ⟨c, c', eq, _⟩ | ⟨r₁, r', eq, rfl, same, trans⟩
      · cases eq
      · cases eq
        rw [same]
        exact ⟨r', kept, trans.sound grown
          (fun b published => counted_of_published init reached before published) sound⟩

end Runs

/-- A copy of a bucket with the frames of `c` has the trace of `c`. -/
theorem CallSiteStats.Copies.frames_eq {c : RecordCall} (copies : row.Copies mem b)
    (frames : (mem b).sampleFrames = firstFrames c.frames.frames c.frames.count)
    (count : (mem b).frameCount = BitVec.ofNat 64 c.frames.count) :
    row.frameCount = c.frames.count ∧ row.frames = firstFrames c.frames.frames c.frames.count ∧
      row.hash = c.hash := by
  have length : row.frameCount = c.frames.count := by
    have := c.frames.count.isLt
    rw [copies.frameCount, count]
    refine Fin.ext ?_
    simp only [ScanCall.clampFrameCount, BitVec.toNat_ofNat]
    omega
  have same : row.frames = firstFrames c.frames.frames c.frames.count := by
    rw [copies.frames, frames, length, firstFrames_firstFrames]
  refine ⟨length, same, ?_⟩
  rw [CallSiteStats.hash, RecordCall.hash, Frames.hash, same, length]
  exact hashFrames_congr (take_firstFrames _ _)

theorem CallSiteStats.trace_eq {c : RecordCall} (length : row.frameCount = c.frames.count)
    (frames : row.frames = firstFrames c.frames.frames c.frames.count) : row.trace = c.frames.trace := by
  rw [CallSiteStats.trace, Frames.trace, frames, length, take_firstFrames]

/-- The row in terms of the call that claimed its bucket. -/
theorem CallSiteStats.Copies.claimer {moves : List (Move Call Unit)} {s : TableState}
    (init : st.Initialised env) (run : (tableProgram st).Exec withFrames TableState.empty moves s)
    (copies : row.Copies s.shared b) :
    b < st.buckets ∧ (s.shared b).hash = row.hash ∧
      ∃ c ∈ s.calls, c.pc = .returned (.claimed b) ∧ row.frameCount = c.frames.count ∧
        row.frames = firstFrames c.frames.frames c.frames.count := by
  obtain ⟨c, inCalls, pc, frames, count⟩ := published_of_exec init run copies.published
  have sound := (sound_of_exec init run).2 c inCalls
  simp only [RecordCall.Sound, pc] at sound
  obtain ⟨_, inRange, held⟩ := sound
  obtain ⟨length, same, hash⟩ := copies.frames_eq frames count
  exact ⟨inRange, held.trans hash.symm, c, inCalls, pc, length, same⟩

theorem RowOf.claimer {moves : List (Move Call Unit)} {s : TableState} (init : st.Initialised env)
    (run : (tableProgram st).Exec withFrames TableState.empty moves s)
    (copy : RowOf first s.shared b row) :
    b < st.buckets ∧ (s.shared b).hash = row.hash ∧
      ∃ c ∈ s.calls, c.pc = .returned (.claimed b) ∧ row.frameCount = c.frames.count ∧
        row.frames = firstFrames c.frames.frames c.frames.count :=
  copy.copies.claimer init run

/-- The row is the trace of the one call that claimed its bucket, and its counts
lie between the events that had returned in `s₀` and those begun by `s`. -/
structure CallSiteStats.Faithful (s₀ s : TableState) (row : CallSiteStats) : Prop where
  claimer : ∃ (b i : Nat) (c : RecordCall), s.procs[i]? = some (.record c) ∧ c.pc = .returned (.claimed b) ∧
    (∀ (j : Nat) (d : RecordCall), s.procs[j]? = some (.record d) → d.pc.claimedSlot = some b → j = i) ∧
    row.frameCount = c.frames.count ∧ row.trace = c.frames.trace
  frames : 1 ≤ row.frameCount.val ∧ row.frameCount.val ≤ 8 ∧
    ∀ j (inRange : j < 8), row.frameCount.val ≤ j → row.frames[j] = 0
  count : 1 ≤ row.count.toNat ∧ (s₀.returnedEvents row.hash).length ≤ row.count.toNat ∧
    row.count.toNat ≤ (s.events row.hash).length
  bytes : ((s₀.returnedEvents row.hash).map fun c => c.size.toNat).sum ≤ row.totalBytes.toNat ∧
    row.totalBytes.toNat ≤ s.eventBytes row.hash

/-- An event that has returned is in the bucket of its hash, if there ever is one. -/
theorem slots_of_returned {moves moves' : List (Move Call Unit)} {s₀ s : TableState}
    {c : RecordCall} (init : st.Initialised env)
    (run : (tableProgram st).Exec withFrames TableState.empty moves s₀)
    (rest : (tableProgram st).Exec withFrames s₀ moves' s) (inCalls : c ∈ s₀.calls)
    (returned : c.pc.isReturned = true) (inRange : b < st.buckets)
    (held : (s.shared b).hash = c.hash) :
    c.pc.countedSlot = some b ∧ c.pc.summedSlot = some b := by
  obtain ⟨outcome, pc⟩ := RecordPc.isReturned_iff.mp returned
  have run' := run.append rest
  have later := TableState.returned_stays inCalls returned rest
  rcases ((sound_of_exec init run').2 c later).returned (frames_of_exec run' c later) pc with
    ⟨b', inRange', held', counted, summed⟩ | ⟨_, full⟩
  · have claimed : (s.shared b).hash ≠ 0 := by
      rw [held]
      exact Frames.hash_ne_zero _
    obtain rfl : b = b' := hash_unique init run' inRange inRange' claimed (held.trans held'.symm)
    exact ⟨counted, summed⟩
  · exact absurd held (full b inRange).2

theorem TableState.tally_returnedEvents (s : TableState) (h : U64) (weight : RecordCall → Nat) :
    ((s.returnedEvents h).map weight).sum =
      s.tally (fun c => c.pc.isReturned && decide (c.hash = h)) weight := by
  rw [TableState.returnedEvents, TableState.events, List.filter_filter]
  rfl

theorem TableState.length_returnedEvents (s : TableState) (h : U64) :
    (s.returnedEvents h).length =
      s.tally (fun c => c.pc.isReturned && decide (c.hash = h)) fun _ => 1 := by
  rw [← TableState.tally_returnedEvents, List.map_const', List.sum_replicate_nat, Nat.mul_one]

/-- **A copy of a bucket is a faithful row.** -/
theorem RowOf.faithful {moves moves' : List (Move Call Unit)} {s₀ s : TableState}
    (init : st.Initialised env)
    (run : (tableProgram st).Exec withFrames TableState.empty moves s₀)
    (rest : (tableProgram st).Exec withFrames s₀ moves' s) (bounded : s.Bounded)
    (copy : RowOf s₀.shared s.shared b row) : row.Faithful s₀ s := by
  have run' := run.append rest
  have bounded₀ := bounded.before rest
  obtain ⟨inRange, held, c, inCalls, pc, length, frames⟩ := copy.claimer init run'
  have claimed : c.pc.claimedSlot = some b := by
    rw [pc]
    rfl
  have soundOf := (sound_of_exec init run').2
  have returned : ∀ d ∈ s₀.calls, (d.pc.isReturned && decide (d.hash = row.hash)) = true →
      d.pc.countedSlot = some b ∧ d.pc.summedSlot = some b := by
    intro d inCalls' event
    simp only [Bool.and_eq_true, decide_eq_true_eq] at event
    exact slots_of_returned init run rest inCalls' event.1 inRange (held.trans event.2.symm)
  have begun : ∀ d ∈ s.calls, d.pc.countedSlot = some b → d.hash = row.hash := by
    intro d inCalls' counted
    exact ((soundOf d inCalls').counted counted).2.symm.trans held
  refine ⟨?_, ?_, ⟨copy.counted, ?_, ?_⟩, ?_, ?_⟩
  · obtain ⟨i, atIndex⟩ := mem_procs_iff.mp (mem_calls_iff.mp inCalls)
    refine ⟨b, i, c, atIndex, pc, fun j d at_j claimed' => ?_, length, ?_⟩
    · exact claimer_unique run' at_j atIndex claimed' claimed
    · exact CallSiteStats.trace_eq length frames
  · refine ⟨?_, Nat.le_of_lt_succ row.frameCount.isLt, fun j inRange' past => ?_⟩
    · rw [length]
      exact frames_of_exec run' c inCalls
    · have zero : (firstFrames c.frames.frames c.frames.count)[j] = 0 := by
        rw [getElem_firstFrames, if_neg (by rw [← length]; omega)]
      simpa only [frames] using zero
  · refine Nat.le_trans ?_ copy.count_ge
    rw [s₀.length_returnedEvents, bounded₀.count run b]
    exact TableState.tally_mono fun d inCalls' event =>
      decide_eq_true (returned d inCalls' event).1
  · refine Nat.le_trans copy.count_le ?_
    rw [s.length_events, bounded.count run' b]
    exact TableState.tally_mono fun d inCalls' counted =>
      decide_eq_true (begun d inCalls' (of_decide_eq_true counted))
  · refine Nat.le_trans ?_ copy.bytes_ge
    rw [s₀.tally_returnedEvents, bounded₀.totalBytes run b]
    exact TableState.tally_mono fun d inCalls' event =>
      decide_eq_true (returned d inCalls' event).2
  · refine Nat.le_trans copy.bytes_le ?_
    rw [bounded.totalBytes run' b]
    exact TableState.tally_mono fun d inCalls' summed => decide_eq_true
      (begun d inCalls' (RecordPc.countedSlot_of_summedSlot (of_decide_eq_true summed)))

/-- What a report consists of: copies of all buckets published when it began. -/
theorem rows_of_reports {moves : List (Move Call Unit)} {s₀ s : TableState}
    {rows : List CallSiteStats} (init : st.Initialised env)
    (run : (tableProgram st).Exec withFrames TableState.empty moves s₀)
    (report : TableState.Reports st s₀ s rows) (bounded : s.Bounded) :
    Rows s₀.shared s.shared st.buckets rows := by
  obtain ⟨s₁, moves', started, rest, atIndex⟩ := report
  obtain ⟨_, r, at_r, sound⟩ := scanSound_of_exec init run started rest bounded
  cases at_r.symm.trans atIndex
  exact sound

theorem TableState.Reports.exec {s₀ s : TableState} {rows : List CallSiteStats}
    (report : TableState.Reports st s₀ s rows) :
    ∃ moves, (tableProgram st).Exec withFrames s₀ moves s := by
  obtain ⟨s₁, moves, started, rest, _⟩ := report
  exact ⟨.start .report :: moves, .cons trivial started rest⟩

/-- **Reports are never torn and never go backwards.** Every row is faithful, the
rows have different hashes, and a report that begins after this one has ended
shows every row again with the same frames and no smaller counts. -/
theorem report_faithful {moves : List (Move Call Unit)} {s₀ s : TableState}
    {rows : List CallSiteStats} (init : st.Initialised env)
    (run : (tableProgram st).Exec withFrames TableState.empty moves s₀)
    (report : TableState.Reports st s₀ s rows) (bounded : s.Bounded) :
    (∀ row ∈ rows, row.Faithful s₀ s) ∧
    rows.Pairwise (fun x y => x.hash ≠ y.hash) ∧
    ∀ moves' s₁ s₂ rows', (tableProgram st).Exec withFrames s moves' s₁ →
      TableState.Reports st s₁ s₂ rows' → s₂.Bounded → ∀ row ∈ rows, ∃ row' ∈ rows',
        row'.frames = row.frames ∧ row'.frameCount = row.frameCount ∧
        row.count.toNat ≤ row'.count.toNat ∧ row.totalBytes.toNat ≤ row'.totalBytes.toNat := by
  obtain ⟨between, rest⟩ := report.exec
  have run' := run.append rest
  obtain ⟨bs, sorted, below, _, copies⟩ := rows_of_reports init run report bounded
  refine ⟨fun row inRows => ?_, ?_, ?_⟩
  · obtain ⟨b, _, copy⟩ := exists_mem_of_forall₂ copies inRows
    exact copy.faithful init run rest bounded
  · refine pairwise_of_forall₂ ?_ copies sorted
    intro a b x y copy copy' lt same
    obtain ⟨inRange, held, c, _, _⟩ := copy.claimer init run'
    obtain ⟨inRange', held', _⟩ := copy'.claimer init run'
    have claimed : (s.shared a).hash ≠ 0 := by
      rw [held]
      exact hashFrames_ne_zero _ _
    have := hash_unique init run' inRange inRange' claimed (held.trans (same.trans held'.symm))
    omega
  · intro moves' s₁ s₂ rows' later report' bounded' row inRows
    obtain ⟨b, inBs, copy⟩ := exists_mem_of_forall₂ copies inRows
    obtain ⟨between', rest'⟩ := report'.exec
    have run₁ := run'.append later
    have grows := grows_of_exec init run' later (bounded'.before rest')
    have grows' := grows_of_exec init run₁ rest' bounded'
    obtain ⟨bs', _, _, complete, copies'⟩ := rows_of_reports init run₁ report' bounded'
    obtain ⟨frames, count⟩ := grows.published b copy.published
    have published₁ : (s₁.shared b).frameCount ≠ 0 := by
      rw [count]
      exact copy.published
    obtain ⟨frames', count'⟩ := grows'.published b published₁
    obtain ⟨row', inRows', copy'⟩ :=
      exists_mem_of_forall₂ copies'.flip (complete b (below b inBs) published₁)
    have length : row'.frameCount = row.frameCount := by
      rw [copy'.frameCount, copy.frameCount, count', count]
    refine ⟨row', inRows', ?_, length, ?_, ?_⟩
    · rw [copy'.frames, copy.frames, frames', frames, length]
    · exact Nat.le_trans copy.count_le (Nat.le_trans (grows.count b) copy'.count_ge)
    · exact Nat.le_trans copy.bytes_le (Nat.le_trans (grows.totalBytes b) copy'.bytes_ge)

/-! A report over one published bucket; a second event of its site is recorded
while the scan goes on. -/

def reportStart : TableState :=
  ((tableProgram raceStatics).run withFrames TableState.empty
    (.start (.record raceFrames 10) :: turns 0 9)).get (by decide)

def scanStart : TableState := ⟨reportStart.shared, reportStart.procs ++ [.scan .init]⟩

def reportEnd : TableState :=
  ((tableProgram raceStatics).run withFrames scanStart
    (.start (.record raceFrames 20) :: turns 2 6 ++ turns 1 71)).get (by decide)

def reportRow : CallSiteStats := ⟨raceFrames.frames, raceFrames.count, 2, 30⟩

theorem report_faithful_one : reportRow.Faithful reportStart reportEnd := by
  have run : (tableProgram raceStatics).Exec withFrames TableState.empty _ reportStart :=
    Exec.of_run (Option.some_get (by decide)).symm
  have rest : (tableProgram raceStatics).Exec withFrames scanStart _ reportEnd :=
    Exec.of_run (Option.some_get (by decide)).symm
  have report : TableState.Reports raceStatics reportStart reportEnd [reportRow] :=
    ⟨scanStart, _, rfl, rest, by decide⟩
  exact (report_faithful raceStatics_initialised run report ⟨by decide, by decide⟩).1 reportRow
    (List.mem_singleton_self _)

end ModAlloc
