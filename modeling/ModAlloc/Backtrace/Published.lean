import ModAlloc.Backtrace.Record

/-!
# What a published bucket holds

The claimer of a bucket writes the sample frames, adds its own event and stores
the frame count last. So a bucket whose `frame_count` is not zero has the frames
of its claimer in place and counts at least one event (`published_of_exec`), and
it stays like that (`grows_of_exec`).
-/

namespace ModAlloc

open Interleaving Interleaving.Program

variable {st : Statics} {env : Option (List Char)} {mem mem' : Memory} {c c' d : RecordCall}
  {b : Nat}

/-! ## The frames of the claimer -/

/-- How far the claimer has come with the bucket it has claimed. -/
def RecordCall.Filled (mem : Memory) (c : RecordCall) : Prop :=
  match c.pc with
  | .fill idx i =>
      i.val < c.frames.count.val ∧ (mem idx).sampleFrames = firstFrames c.frames.frames i ∧
        (mem idx).frameCount = 0
  | .initCount idx | .initBytes idx | .publish idx =>
      (mem idx).sampleFrames = firstFrames c.frames.frames c.frames.count ∧
        (mem idx).frameCount = 0
  | .returned (.claimed idx) =>
      (mem idx).sampleFrames = firstFrames c.frames.frames c.frames.count ∧
        (mem idx).frameCount = BitVec.ofNat 64 c.frames.count
  | _ => True

theorem RecordCall.Filled.of_unclaimed (unclaimed : c.pc.claimedSlot = none) : c.Filled mem := by
  unfold RecordCall.Filled
  unfold RecordPc.claimedSlot at unclaimed
  split <;> simp_all

/-- What is said of a claimer is said of the bucket it has claimed. -/
theorem RecordCall.Filled.congr (filled : c.Filled mem)
    (same : ∀ b, c.pc.claimedSlot = some b → (mem' b).sampleFrames = (mem b).sampleFrames ∧
      (mem' b).frameCount = (mem b).frameCount) : c.Filled mem' := by
  unfold RecordCall.Filled at filled ⊢
  unfold RecordPc.claimedSlot at same
  split at filled
  case h_1 idx i pc | h_2 idx pc | h_3 idx pc | h_4 idx pc | h_5 idx pc =>
    obtain ⟨frames, published⟩ := same idx (by rw [pc])
    rw [frames, published]
    exact filled
  · trivial

/-- A step writes the frames and the frame count of its own bucket only. -/
theorem RecordCall.Trans.others_kept (trans : RecordCall.Trans st mem c mem' c')
    (other : c'.pc.claimedSlot ≠ some b) :
    (mem' b).sampleFrames = (mem b).sampleFrames ∧ (mem' b).frameCount = (mem b).frameCount := by
  cases trans with
  | @fill idx i more pc | @fillLast idx i more pc | @publish idx pc =>
      have elsewhere : b ≠ idx := by
        intro here
        exact other (congrArg some here.symm)
      rw [Memory.modify_of_ne _ elsewhere]
      exact ⟨rfl, rfl⟩
  | _ =>
      exact ⟨by simp only [Memory.modify_field Bucket.sampleFrames, implies_true],
        by simp only [Memory.modify_field Bucket.frameCount, implies_true]⟩

/-- **A step fills in the claimer's own frames.** -/
theorem RecordCall.Trans.filled (trans : RecordCall.Trans st mem c mem' c')
    (unclaimed : ∀ b, (mem b).hash = 0 → mem b = Bucket.empty)
    (frames : 1 ≤ c.frames.count.val) (filled : c.Filled mem) :
    c'.Filled mem' := by
  cases trans with
  | @claim idx pc free =>
      have blank := unclaimed idx free
      refine ⟨frames, ?_, ?_⟩
      · rw [Memory.modify_self, blank]
        exact (firstFrames_zero _).symm
      · rw [Memory.modify_self, blank]
        rfl
  | @fill idx i more pc =>
      simp only [RecordCall.Filled, pc] at filled
      obtain ⟨_, sofar, unpublished⟩ := filled
      refine ⟨more, ?_, ?_⟩
      · rw [Memory.modify_self, sofar]
        exact firstFrames_set _ i.isLt
      · rw [Memory.modify_self, unpublished]
  | @fillLast idx i last pc =>
      simp only [RecordCall.Filled, pc] at filled
      obtain ⟨inRange, sofar, unpublished⟩ := filled
      have full : c.frames.count.val = i.val + 1 := by omega
      refine ⟨?_, ?_⟩
      · rw [Memory.modify_self, sofar, full]
        exact firstFrames_set _ i.isLt
      · rw [Memory.modify_self, unpublished]
  | @initCount idx pc | @initBytes idx pc =>
      simp only [RecordCall.Filled, pc] at filled
      refine ⟨?_, ?_⟩
      · rw [Memory.modify_self, filled.1]
      · rw [Memory.modify_self, filled.2]
  | @publish idx pc =>
      simp only [RecordCall.Filled, pc] at filled
      refine ⟨?_, ?_⟩
      · rw [Memory.modify_self, filled.1]
      · rw [Memory.modify_self]
  | @seeOther idx pc | @loseToOther idx pc =>
      rcases c.advance_cases st idx with eq | eq <;> simp only [RecordCall.Filled, eq]
  | _ => trivial

/-- The claimer of a published bucket is through with it. -/
theorem RecordCall.Filled.of_published (filled : c.Filled mem) (claimer : c.pc.claimedSlot = some b)
    (published : (mem b).frameCount ≠ 0) : c.pc = .returned (.claimed b) ∧
      (mem b).sampleFrames = firstFrames c.frames.frames c.frames.count ∧
      (mem b).frameCount = BitVec.ofNat 64 c.frames.count := by
  unfold RecordPc.claimedSlot at claimer
  unfold RecordCall.Filled at filled
  split at claimer
  case h_1 pc =>
    cases claimer
    simp only [pc] at filled
    exact absurd filled.2.2 published
  case h_2 pc | h_3 pc | h_4 pc =>
    cases claimer
    simp only [pc] at filled
    exact absurd filled.2 published
  case h_5 pc =>
    cases claimer
    simp only [pc] at filled
    exact ⟨pc, filled⟩
  · cases claimer

/-- The call that claimed a bucket has published it when it returns. -/
theorem RecordCall.Filled.frameCount_ne_zero (filled : c.Filled mem) (frames : 1 ≤ c.frames.count.val)
    (pc : c.pc = .returned (.claimed b)) : (mem b).frameCount ≠ 0 := by
  simp only [Filled, pc] at filled
  have small := c.frames.count.isLt
  intro zero
  have count := congrArg BitVec.toNat (filled.2.symm.trans zero)
  rw [BitVec.toNat_ofNat, Nat.mod_eq_of_lt (by omega)] at count
  exact absurd frames (by rw [count]; decide)

/-- A process of the table, against the frames in the memory. -/
def Proc.Filled (mem : Memory) : Proc → Prop
  | .record c => c.Filled mem
  | .scan _ => True

/-- What the calls of a table started empty can reach. -/
def TableState.Reached (st : Statics) (s : TableState) : Prop :=
  ∃ moves, (tableProgram st).Exec withFrames TableState.empty moves s

theorem filled_of_exec {moves : List (Move Call Unit)} {s : TableState}
    (init : st.Initialised env)
    (run : (tableProgram st).Exec withFrames TableState.empty moves s) (inCalls : c ∈ s.calls) :
    c.Filled s.shared := by
  have undisturbed : Undisturbed (tableProgram st) withFrames (TableState.Reached st)
      (fun _ => True) Proc.Filled :=
    { start_self := by
        intro s call mem p _ _ _ _ started
        obtain ⟨rfl, rfl⟩ := tableProgram_start started
        refine ⟨trivial, ?_⟩
        cases call with
        | record frames size =>
            exact RecordCall.Filled.of_unclaimed (RecordCall.init_slots frames size).1
        | report => trivial
      start_other := by
        intro s call mem p i q _ _ _ _ started _ filled
        obtain ⟨rfl, rfl⟩ := tableProgram_start started
        exact filled
      act_self := by
        intro s i p a mem p' reached _ _ atIndex filled acted
        refine ⟨trivial, ?_⟩
        obtain ⟨moves, run⟩ := reached
        rcases tableProgram_act acted with ⟨c, c', rfl, rfl, trans⟩ | ⟨r, r', rfl, rfl, rfl, _⟩
        · have frames := frames_of_exec run c
            (mem_calls_iff.mpr (List.mem_of_getElem? atIndex))
          exact trans.filled (sound_of_exec init run).1.blank frames filled
        · trivial
      act_other := by
        intro s i p a mem p' j q reached cond _ atIndex _ acted other at_j filled
        rcases tableProgram_act acted with ⟨c, c', rfl, rfl, trans⟩ | ⟨r, r', rfl, rfl, rfl, _⟩
        · cases q with
          | scan r => trivial
          | record d =>
              refine RecordCall.Filled.congr filled fun b claimed => trans.others_kept ?_
              intro claimed'
              obtain ⟨moves, run⟩ := reached
              -- after the step both calls would have claimed the bucket
              have run' := run.snoc cond (step_act_eq atIndex acted)
              exact other (claimer_unique run' (by rw [List.getElem?_set_ne (Ne.symm other), at_j])
                (List.getElem?_set_self (List.getElem?_eq_some_iff.mp atIndex).1) claimed claimed')
        · exact filled }
  have procs := (Exec.interference (A := TableState.Reached st) (G := fun _ => True)
    (I := Proc.Filled)
    (fun s m s' ⟨moves, run⟩ cond stepped => ⟨moves ++ [m], run.snoc cond stepped⟩)
    undisturbed run ⟨[], .nil _⟩ ⟨trivial, fun i p atIndex => by cases atIndex⟩).2
  obtain ⟨i, atIndex⟩ := mem_procs_iff.mp (mem_calls_iff.mp inCalls)
  exact procs i _ atIndex

/-! ## Published buckets -/

section Published

variable {moves moves' : List (Move Call Unit)} {s s' : TableState} (init : st.Initialised env)
  (run : (tableProgram st).Exec withFrames TableState.empty moves s)

include init run

/-- **A published bucket holds the frames of the call that claimed it**, which
has returned. -/
theorem published_of_exec (published : (s.shared b).frameCount ≠ 0) :
    ∃ c ∈ s.calls, c.pc = .returned (.claimed b) ∧
      (s.shared b).sampleFrames = firstFrames c.frames.frames c.frames.count ∧
      (s.shared b).frameCount = BitVec.ofNat 64 c.frames.count := by
  have claimed : (s.shared b).hash ≠ 0 := by
    intro free
    have blank := (sound_of_exec init run).1.blank b free
    rw [blank] at published
    exact published rfl
  obtain ⟨c, inCalls, claimer⟩ := exists_claimer run claimed
  exact ⟨c, inCalls, (filled_of_exec init run inCalls).of_published claimer published⟩

/-- A bucket that has been published stays as it is, but for what it counts. -/
theorem published_kept (rest : (tableProgram st).Exec withFrames s moves' s')
    (published : (s.shared b).frameCount ≠ 0) :
    (s'.shared b).sampleFrames = (s.shared b).sampleFrames ∧
      (s'.shared b).frameCount = (s.shared b).frameCount := by
  obtain ⟨c, inCalls, pc, frames, count⟩ := published_of_exec init run published
  have returned : c.pc.isReturned = true := by rw [pc, RecordPc.isReturned]
  have later := TableState.returned_stays inCalls returned rest
  have filled := filled_of_exec init (run.append rest) later
  simp only [RecordCall.Filled, pc] at filled
  rw [frames, count]
  exact filled

end Published

/-! ## Counts go up -/

/-- There are fewer than `2 ^ 64` events, of fewer than `2 ^ 64` bytes together. -/
structure TableState.Bounded (s : TableState) : Prop where
  events : s.calls.length < 2 ^ 64
  bytes : (s.calls.map fun c => c.size.toNat).sum < 2 ^ 64

theorem RecordCall.Trans.slots_kept (trans : RecordCall.Trans st mem c mem' c') :
    (c.pc.countedSlot = some b → c'.pc.countedSlot = some b) ∧
      (c.pc.summedSlot = some b → c'.pc.summedSlot = some b) := by
  cases trans <;> simp_all [RecordPc.countedSlot, RecordPc.summedSlot]

/-- What a process adds to a tally. -/
def Proc.tally (sel : RecordCall → Bool) (weight : RecordCall → Nat) : Proc → Nat
  | .record c => if sel c then weight c else 0
  | .scan _ => 0

section Tallies

variable {ok : TableState → Move Call Unit → Prop} {moves : List (Move Call Unit)}
  {s s' : TableState} {sel : RecordCall → Bool} {weight : RecordCall → Nat}

theorem TableState.tally_procs (s : TableState) :
    s.tally sel weight = (s.procs.map (Proc.tally sel weight)).sum := by
  rw [TableState.sum_procs (f := Proc.tally sel weight) (fun _ => rfl) (fun _ => rfl),
    TableState.tally, ← sum_map_ite]
  rfl

/-- A call that is selected stays selected, so tallies go up. -/
theorem tally_le_of_exec (rest : (tableProgram st).Exec ok s moves s')
    (kept : ∀ {mem c mem' c'}, RecordCall.Trans st mem c mem' c' → sel c = true →
      sel c' = true ∧ weight c' = weight c) : s.tally sel weight ≤ s'.tally sel weight := by
  rw [TableState.tally_procs, TableState.tally_procs]
  refine Exec.sum_le ?_ rest
  intro mem i p a mem' p' acted
  rcases tableProgram_act acted with ⟨c, c', rfl, rfl, trans⟩ | ⟨r, r', rfl, rfl, rfl, _⟩
  · simp only [Proc.tally]
    by_cases selected : sel c = true
    · obtain ⟨selected', same⟩ := kept trans selected
      rw [if_pos selected, if_pos selected', same]
    · rw [if_neg selected]
      exact Nat.zero_le _
  · exact Nat.le_refl _

theorem TableState.tally_mono {sel' : RecordCall → Bool}
    (more : ∀ c ∈ s.calls, sel c = true → sel' c = true) :
    s.tally sel weight ≤ s.tally sel' weight := by
  rw [TableState.tally, TableState.tally, ← sum_map_ite, ← sum_map_ite]
  refine List.sum_le_sum fun c inCalls => ?_
  by_cases selected : sel c = true
  · rw [if_pos selected, if_pos (more c inCalls selected)]
  · rw [if_neg selected]
    exact Nat.zero_le _

theorem TableState.tally_le_length (s : TableState) :
    s.tally sel (fun _ => 1) ≤ s.calls.length := by
  rw [TableState.tally, List.map_const', List.sum_replicate_nat, Nat.mul_one]
  exact List.length_filter_le _ _

theorem TableState.tally_le_sum (s : TableState) : s.tally sel weight ≤ (s.calls.map weight).sum := by
  have all : s.tally sel weight ≤ s.tally (fun _ => true) weight :=
    TableState.tally_mono fun _ _ _ => rfl
  rwa [TableState.tally.eq_1 s (fun _ => true), List.filter_true] at all

/-- Where the events are bounded, no count has wrapped. -/
theorem TableState.Bounded.count (bounded : s.Bounded)
    (run : (tableProgram st).Exec ok TableState.empty moves s) (b : Nat) :
    (s.shared b).count.toNat = s.tally (fun c => c.pc.countedSlot = some b) fun _ => 1 := by
  rw [count_tally run b]
  exact Nat.mod_eq_of_lt (Nat.lt_of_le_of_lt s.tally_le_length bounded.events)

theorem TableState.Bounded.totalBytes (bounded : s.Bounded)
    (run : (tableProgram st).Exec ok TableState.empty moves s) (b : Nat) :
    (s.shared b).totalBytes.toNat =
      s.tally (fun c => c.pc.summedSlot = some b) fun c => c.size.toNat := by
  rw [bytes_tally run b]
  exact Nat.mod_eq_of_lt (Nat.lt_of_le_of_lt s.tally_le_sum bounded.bytes)

theorem TableState.Bounded.before (rest : (tableProgram st).Exec ok s moves s')
    (bounded : s'.Bounded) : s.Bounded := by
  have all : ∀ (s : TableState) weight, (s.calls.map weight).sum = s.tally (fun _ => true) weight := by
    intro s weight
    rw [TableState.tally, List.filter_true]
  have length : ∀ s : TableState, s.calls.length = s.tally (fun _ => true) fun _ => 1 := by
    intro s
    rw [TableState.tally, List.filter_true, List.map_const', List.sum_replicate_nat, Nat.mul_one]
  refine ⟨?_, ?_⟩
  · refine Nat.lt_of_le_of_lt ?_ bounded.events
    rw [length, length]
    exact tally_le_of_exec rest fun _ _ => ⟨rfl, rfl⟩
  · refine Nat.lt_of_le_of_lt ?_ bounded.bytes
    rw [all, all]
    exact tally_le_of_exec rest fun trans _ => ⟨rfl, congrArg BitVec.toNat trans.args.2⟩

end Tallies

/-- What two moments of a run have in common: published buckets stay as they are,
and no count goes down. -/
structure Memory.Grows (mem mem' : Memory) : Prop where
  published : ∀ b, (mem b).frameCount ≠ 0 →
    (mem' b).sampleFrames = (mem b).sampleFrames ∧ (mem' b).frameCount = (mem b).frameCount
  count : ∀ b, (mem b).count.toNat ≤ (mem' b).count.toNat
  totalBytes : ∀ b, (mem b).totalBytes.toNat ≤ (mem' b).totalBytes.toNat

theorem Memory.Grows.refl (mem : Memory) : mem.Grows mem :=
  ⟨fun _ _ => ⟨rfl, rfl⟩, fun _ => Nat.le_refl _, fun _ => Nat.le_refl _⟩

/-- **The table only grows.** -/
theorem grows_of_exec {moves moves' : List (Move Call Unit)} {s s' : TableState}
    (init : st.Initialised env) (run : (tableProgram st).Exec withFrames TableState.empty moves s)
    (rest : (tableProgram st).Exec withFrames s moves' s') (bounded : s'.Bounded) :
    s.shared.Grows s'.shared := by
  have before := bounded.before rest
  refine ⟨fun b => published_kept init run rest, fun b => ?_, fun b => ?_⟩
  · rw [before.count run b, bounded.count (run.append rest) b]
    refine tally_le_of_exec rest fun trans counted => ⟨?_, rfl⟩
    simp only [decide_eq_true_eq] at counted ⊢
    exact trans.slots_kept.1 counted
  · rw [before.totalBytes run b, bounded.totalBytes (run.append rest) b]
    refine tally_le_of_exec rest fun trans summed => ⟨?_, ?_⟩
    · simp only [decide_eq_true_eq] at summed ⊢
      exact trans.slots_kept.2 summed
    · exact congrArg BitVec.toNat trans.args.2

/-- A published bucket has been claimed and counts its claimer's event. -/
theorem counted_of_published {moves : List (Move Call Unit)} {s : TableState}
    (init : st.Initialised env) (run : (tableProgram st).Exec withFrames TableState.empty moves s)
    (bounded : s.Bounded) (published : (s.shared b).frameCount ≠ 0) :
    (s.shared b).hash ≠ 0 ∧ 1 ≤ (s.shared b).count.toNat := by
  obtain ⟨c, inCalls, pc, _⟩ := published_of_exec init run published
  refine ⟨?_, ?_⟩
  · have claimed : c.pc.claimedSlot = some b := by
      rw [pc]
      rfl
    rw [((sound_of_exec init run).2 c inCalls).claimed claimed |>.2]
    exact Frames.hash_ne_zero _
  · rw [bounded.count run b, TableState.tally, List.map_const', List.sum_replicate_nat,
      Nat.mul_one]
    refine List.length_pos_of_mem (List.mem_filter.mpr ⟨inCalls, ?_⟩)
    rw [pc]
    exact decide_eq_true rfl

end ModAlloc
