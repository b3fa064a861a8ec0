import ModAlloc.Backtrace.TableInvariant

/-!
# `record` is exact and all-or-nothing

For any number of `record` calls on an initialised table and any interleaving
of their atomic steps: a call visits each slot at most once and cannot be
blocked, and when the calls have returned every hash has either one bucket that
counts all of its events or no bucket and none of its events.
-/

namespace ModAlloc

open Interleaving Interleaving.Program LinearProbe

/-- The callers record captures that have at least one frame. -/
def withFrames (_ : TableState) : Move Call Unit → Prop
  | .start (.record frames _) => 1 ≤ frames.count.val
  | _ => True

instance (s : TableState) : ∀ m : Move Call Unit, Decidable (withFrames s m)
  | .start (.record frames _) => inferInstanceAs (Decidable (1 ≤ frames.count.val))
  | .start .report => .isTrue trivial
  | .act _ _ => .isTrue trivial

def RecordPc.isReturned : RecordPc → Bool
  | .returned _ => true
  | _ => false

theorem RecordPc.isReturned_iff {pc : RecordPc} :
    pc.isReturned = true ↔ ∃ outcome, pc = .returned outcome := by
  cases pc <;> simp [RecordPc.isReturned]

instance (pc : RecordPc) : Decidable (∃ outcome, pc = .returned outcome) :=
  decidable_of_iff _ RecordPc.isReturned_iff

/-- No `record` call is in progress. -/
def TableState.Quiescent (s : TableState) : Prop :=
  ∀ c ∈ s.calls, ∃ outcome, c.pc = .returned outcome

instance (s : TableState) : Decidable s.Quiescent :=
  inferInstanceAs (Decidable (∀ c ∈ s.calls, ∃ outcome, c.pc = .returned outcome))

/-- The `record` calls made with hash `h`. -/
def TableState.events (s : TableState) (h : U64) : List RecordCall :=
  s.calls.filter fun c => c.hash = h

/-- The sum of the sizes recorded with hash `h`. -/
def TableState.eventBytes (s : TableState) (h : U64) : Nat :=
  ((s.events h).map fun c => c.size.toNat).sum

variable {st : Statics} {env : Option (List Char)} {mem : Memory} {c : RecordCall} {b : Nat}

/-! ## What the slots of a call say about its hash -/

theorem RecordCall.Sound.claimed (sound : c.Sound st mem) (slot : c.pc.claimedSlot = some b) :
    b < st.buckets ∧ (mem b).hash = c.hash := by
  unfold RecordCall.Sound at sound
  unfold RecordPc.claimedSlot at slot
  split at slot <;> simp_all

theorem RecordCall.Sound.counted (sound : c.Sound st mem) (slot : c.pc.countedSlot = some b) :
    b < st.buckets ∧ (mem b).hash = c.hash := by
  unfold RecordCall.Sound at sound
  unfold RecordPc.countedSlot at slot
  split at slot <;> simp_all

theorem RecordPc.countedSlot_of_summedSlot {pc : RecordPc} (slot : pc.summedSlot = some b) :
    pc.countedSlot = some b := by
  unfold RecordPc.summedSlot at slot
  split at slot <;> simp_all [RecordPc.countedSlot]

theorem RecordCall.Sound.visited_le (sound : c.Sound st mem) : c.visited ≤ st.buckets := by
  unfold RecordCall.Sound at sound
  split at sound <;> omega

/-- A returned call has added to the bucket of its hash, or there is no such
bucket and the table is full. -/
theorem RecordCall.Sound.returned (sound : c.Sound st mem) (frames : 1 ≤ c.frames.count.val)
    {outcome : Outcome} (pc : c.pc = .returned outcome) :
    (∃ b, b < st.buckets ∧ (mem b).hash = c.hash ∧ c.pc.countedSlot = some b ∧
      c.pc.summedSlot = some b) ∨
    (outcome = .dropped ∧ ∀ b, b < st.buckets → (mem b).hash ≠ 0 ∧ (mem b).hash ≠ c.hash) := by
  simp only [RecordCall.Sound, pc] at sound
  cases outcome with
  | claimed idx | matched idx =>
      exact .inl ⟨idx, sound.2.1, sound.2.2, by rw [pc]; rfl, by rw [pc]; rfl⟩
  | dropped =>
      refine .inr ⟨rfl, fun b inRange => ?_⟩
      obtain ⟨other, held, different⟩ := sound.2.full inRange
      obtain ⟨claimed, rfl⟩ := Memory.keys_eq_some.mp held
      exact ⟨claimed, different⟩
  | skipped =>
      have none := sound.2
      rw [none] at frames
      exact absurd frames (by decide)

/-! ## Sums over the calls -/

/-- Scans contribute nothing: a sum over the processes is a sum over the calls. -/
theorem TableState.sum_procs {M : Type*} [AddMonoid M] {s : TableState} {f : Proc → M}
    {g : RecordCall → M} (record : ∀ c, f (.record c) = g c) (scan : ∀ r, f (.scan r) = 0) :
    (s.procs.map f).sum = (s.calls.map g).sum := by
  unfold TableState.calls
  induction s.procs with
  | nil => rfl
  | cons p ps ih =>
      cases p with
      | record c =>
          simp only [List.map_cons, List.sum_cons, List.filterMap_cons, Proc.asRecord, record, ih]
      | scan r =>
          simp only [List.map_cons, List.sum_cons, List.filterMap_cons, Proc.asRecord, scan, ih,
            zero_add]

variable {moves : List (Move Call Unit)} {s : TableState}

/-- The frame buffer a call was made with does not change. -/
theorem frames_of_exec (run : (tableProgram st).Exec withFrames TableState.empty moves s) :
    ∀ c ∈ s.calls, 1 ≤ c.frames.count.val := by
  intro c inCalls
  obtain ⟨i, atIndex⟩ := mem_procs_iff.mp (mem_calls_iff.mp inCalls)
  refine Exec.localInvariant (fun _ p => ∀ c, p = .record c → 1 ≤ c.frames.count.val) ?_ ?_ run
    (fun i p atIndex => by cases atIndex) i _ atIndex c rfl
  · intro s call mem p cond started c eq
    obtain ⟨rfl, rfl⟩ := tableProgram_start started
    cases call with
    | record frames size => cases eq; exact cond
    | report => cases eq
  · intro mem i p a mem' p' acted holds c eq
    rcases tableProgram_act acted with ⟨d, d', rfl, rfl, trans⟩ | ⟨r, r', rfl, rfl, rfl, _⟩
    · cases eq
      rw [trans.args.1]
      exact holds d rfl
    · cases eq

/-- A call that has returned stays as it is. -/
theorem TableState.returned_stays {ok : TableState → Move Call Unit → Prop} {s s' : TableState}
    {c : RecordCall} (inCalls : c ∈ s.calls) (returned : c.pc.isReturned = true)
    (rest : (tableProgram st).Exec ok s moves s') : c ∈ s'.calls := by
  obtain ⟨outcome, pc⟩ := RecordPc.isReturned_iff.mp returned
  obtain ⟨i, atIndex⟩ := mem_procs_iff.mp (mem_calls_iff.mp inCalls)
  have halted : ∀ mem a, (tableProgram st).act mem i (.record c) a = none := by
    intro mem a
    simp only [tableProgram, Proc.step, RecordCall.step, pc, Option.map_none]
  exact mem_calls_iff.mpr (List.mem_of_getElem? (rest.stuck halted atIndex))

/-- The sum of `weight` over the selected calls. -/
def TableState.tally (s : TableState) (sel : RecordCall → Bool) (weight : RecordCall → Nat) : Nat :=
  ((s.calls.filter sel).map weight).sum

theorem TableState.tally_congr {sel sel' : RecordCall → Bool} {weight : RecordCall → Nat}
    (same : ∀ c ∈ s.calls, sel c = true ↔ sel' c = true) :
    s.tally sel weight = s.tally sel' weight := by
  unfold TableState.tally
  rw [List.filter_congr fun c inCalls => Bool.eq_iff_iff.mpr (same c inCalls)]

theorem TableState.length_events (s : TableState) (h : U64) :
    (s.events h).length = s.tally (fun c => c.hash = h) fun _ => 1 := by
  rw [TableState.tally, List.map_const', List.sum_replicate_nat, Nat.mul_one]
  rfl

/-- A sum that goes by the slots of the calls, as a tally. -/
theorem TableState.toNat_sum_slots {f : Proc → U64} {b : Nat} (slot : RecordPc → Option Nat)
    (added : RecordCall → U64) (scan : ∀ r, f (.scan r) = 0)
    (record : ∀ c, f (.record c) = if slot c.pc = some b then added c else 0) :
    (s.procs.map f).sum.toNat =
      s.tally (fun c => slot c.pc = some b) (fun c => (added c).toNat) % 2 ^ 64 := by
  have shares : ∀ c ∈ s.calls, f (.record c) = if decide (slot c.pc = some b) then added c else 0 := by
    simp only [record, decide_eq_true_eq, implies_true]
  rw [TableState.sum_procs (fun _ => rfl) scan, List.map_congr_left shares, sum_map_ite, toNat_sum,
    List.map_map]
  rfl

section Tallies

variable {ok : TableState → Move Call Unit → Prop}
  (run : (tableProgram st).Exec ok TableState.empty moves s) (b : Nat)

include run

theorem count_tally : (s.shared b).count.toNat =
    s.tally (fun c => c.pc.countedSlot = some b) (fun _ => 1) % 2 ^ 64 := by
  rw [count_account run b]
  exact TableState.toNat_sum_slots RecordPc.countedSlot (fun _ => 1) (fun _ => rfl) fun _ => rfl

theorem bytes_tally : (s.shared b).totalBytes.toNat =
    s.tally (fun c => c.pc.summedSlot = some b) (fun c => c.size.toNat) % 2 ^ 64 := by
  rw [bytes_account run b]
  exact TableState.toNat_sum_slots RecordPc.summedSlot RecordCall.size (fun _ => rfl) fun _ => rfl

end Tallies

/-! ## Progress -/

/-- A measure that every step of a `record` call raises. -/
def RecordCall.progress (c : RecordCall) : Nat :=
  match c.pc with
  | .loadBase => 0
  | .loadBuckets => 1
  | .loadMask => 2
  | .probe _ => 2 * c.visited + 3
  | .claim _ => 2 * c.visited + 2
  | .matchCount _ => 2 * c.visited + 3
  | .matchBytes _ => 2 * c.visited + 4
  | .fill _ i => 2 * c.visited + 4 + i
  | .initCount _ => 2 * c.visited + 12
  | .initBytes _ => 2 * c.visited + 13
  | .publish _ => 2 * c.visited + 14
  | .returned _ => 2 * c.visited + 15

theorem RecordCall.Trans.progress {mem' : Memory} {c' : RecordCall}
    (trans : RecordCall.Trans st mem c mem' c') : c.progress < c'.progress := by
  cases trans with
  | @seeOther idx pc | @loseToOther idx pc =>
      rcases c.advance_cases st idx with eq | eq <;>
        simp only [RecordCall.progress, pc, eq] <;> omega
  | @fill idx i more pc | @fillLast idx i more pc =>
      simp only [RecordCall.progress, pc]
      omega
  | _ =>
      simp only [RecordCall.progress, *]
      omega

/-- The progress of the `record` calls; scans are not measured. -/
def Proc.recordProgress : Proc → Nat
  | .record c => c.progress
  | .scan _ => 0

theorem RecordCall.progress_le (c : RecordCall) : c.progress ≤ 2 * c.visited + 15 := by
  unfold RecordCall.progress
  split <;> omega

/-- A call that has not returned can take its next step, where there is a table. -/
theorem RecordCall.enabled (nonnull : st.base ≠ 0) (running : ∀ outcome, c.pc ≠ .returned outcome) :
    (c.step st mem).isSome := by
  unfold RecordCall.step
  split
  case h_1 pc => rw [if_neg nonnull]; rfl
  case h_5 idx pc =>
    dsimp only
    split
    · rfl
    · split <;> rfl
  case h_12 outcome pc => exact absurd pc (running outcome)
  all_goals rfl

theorem RecordCall.step_isSome (init : st.Initialised env)
    (running : ∀ outcome, c.pc ≠ .returned outcome) : (c.step st mem).isSome :=
  RecordCall.enabled init.base_ne_null running

/-- **Every call returns.** It visits at most `buckets` slots, takes boundedly
many steps of its own, and until it returns no other call can hold it up. -/
theorem record_returns (init : st.Initialised env)
    (run : (tableProgram st).Exec withFrames TableState.empty moves s) {i : Nat}
    (atIndex : s.procs[i]? = some (.record c)) :
    c.visited ≤ st.buckets ∧ moves.countP (Move.isActOf i) ≤ 2 * st.buckets + 15 ∧
      ((∃ outcome, c.pc = .returned outcome) ∨
        ∃ s', (tableProgram st).step s (.act i ()) = some s') := by
  have sound : c.Sound st s.shared :=
    (sound_of_exec init run).2 c (mem_calls_iff.mpr (mem_procs_iff.mpr ⟨i, atIndex⟩))
  have visited := sound.visited_le
  refine ⟨visited, ?_, ?_⟩
  · have bound := Exec.acts_le_progress (P := tableProgram st) (fun p => ∃ c, p = .record c)
      Proc.recordProgress ?_ run atIndex ⟨c, rfl⟩
    · have := c.progress_le
      simp only [Proc.recordProgress] at bound
      omega
    · rintro mem i p a mem' p' acted ⟨c', rfl⟩
      rcases tableProgram_act acted with ⟨c, c', rfl, eq, trans⟩ | ⟨r, r', _, eq, _⟩
      · cases eq
        exact ⟨⟨c, rfl⟩, trans.progress⟩
      · cases eq
  · by_cases returned : ∃ outcome, c.pc = .returned outcome
    · exact .inl returned
    · have enabled : (c.step st s.shared).isSome :=
        RecordCall.step_isSome init fun outcome pc => returned ⟨outcome, pc⟩
      obtain ⟨⟨mem, c'⟩, stepped⟩ := Option.isSome_iff_exists.mp enabled
      have acted : (tableProgram st).act s.shared i (.record c) () = some (mem, .record c') := by
        simp only [tableProgram, Proc.step, stepped, Option.map_some]
      exact .inr ⟨_, step_act_eq atIndex acted⟩

/-! ## The table when the calls have returned -/

section Returned

variable (init : st.Initialised env)
  (run : (tableProgram st).Exec withFrames TableState.empty moves s)

include init run

/-- No two buckets hold the same hash. -/
theorem hash_unique {a b : Nat} (ha : a < st.buckets) (hb : b < st.buckets)
    (claimed : (s.shared a).hash ≠ 0) (same : (s.shared a).hash = (s.shared b).hash) : a = b := by
  have at_a : s.shared.keys a = some (s.shared a).hash := Memory.keys_eq_some.mpr ⟨claimed, rfl⟩
  have at_b : s.shared.keys b = some (s.shared a).hash :=
    Memory.keys_eq_some.mpr ⟨by rwa [← same], same.symm⟩
  exact (sound_of_exec init run).1.placed.unique ha hb at_a at_b

/-- With all calls returned, a call has added to bucket `b` just when it was made
with the hash that `b` holds. -/
theorem counted_iff (quiescent : s.Quiescent) {b : Nat} (hb : b < st.buckets)
    (claimed : (s.shared b).hash ≠ 0) {c : RecordCall} (inCalls : c ∈ s.calls) :
    (c.pc.countedSlot = some b ↔ c.hash = (s.shared b).hash) ∧
      (c.pc.summedSlot = some b ↔ c.hash = (s.shared b).hash) := by
  have sound := (sound_of_exec init run).2 c inCalls
  obtain ⟨outcome, pc⟩ := quiescent c inCalls
  have forward : c.pc.countedSlot = some b → c.hash = (s.shared b).hash :=
    fun slot => (sound.counted slot).2.symm
  have backward : c.hash = (s.shared b).hash →
      c.pc.countedSlot = some b ∧ c.pc.summedSlot = some b := by
    intro own
    rcases sound.returned (frames_of_exec run c inCalls) pc with
      ⟨b', hb', held, counted, summed⟩ | ⟨_, full⟩
    · have : b = b' := hash_unique init run hb hb' claimed (own.symm.trans held.symm)
      subst this
      exact ⟨counted, summed⟩
    · exact absurd own.symm (full b hb).2
  exact ⟨⟨forward, fun own => (backward own).1⟩,
    ⟨fun slot => forward (RecordPc.countedSlot_of_summedSlot slot), fun own => (backward own).2⟩⟩

/-- The `count` of a bucket is the number of events with its hash. -/
theorem count_eq (quiescent : s.Quiescent) {b : Nat} (hb : b < st.buckets)
    (claimed : (s.shared b).hash ≠ 0) :
    (s.shared b).count.toNat = (s.events (s.shared b).hash).length % 2 ^ 64 := by
  rw [count_tally run b, TableState.length_events]
  refine congrArg (· % 2 ^ 64) (TableState.tally_congr fun c inCalls => ?_)
  simpa only [decide_eq_true_eq] using (counted_iff init run quiescent hb claimed inCalls).1

/-- The `total_bytes` of a bucket is the sum of the sizes of its events. -/
theorem totalBytes_eq (quiescent : s.Quiescent) {b : Nat} (hb : b < st.buckets)
    (claimed : (s.shared b).hash ≠ 0) :
    (s.shared b).totalBytes.toNat = s.eventBytes (s.shared b).hash % 2 ^ 64 := by
  rw [bytes_tally run b]
  refine congrArg (· % 2 ^ 64) (TableState.tally_congr fun c inCalls => ?_)
  simpa only [decide_eq_true_eq] using (counted_iff init run quiescent hb claimed inCalls).2

/-- An event is dropped only where as many other hashes as there are buckets
have been recorded. -/
theorem buckets_lt_of_dropped {c : RecordCall} (inCalls : c ∈ s.calls)
    (dropped : c.pc = .returned .dropped) :
    st.buckets < (s.calls.map RecordCall.hash).toFinset.card := by
  have sound := (sound_of_exec init run).2 c inCalls
  obtain ⟨_, _, _, slot, _⟩ | ⟨_, full⟩ := sound.returned (frames_of_exec run c inCalls) dropped
  · rw [dropped] at slot
    cases slot
  have others : (Finset.range st.buckets).card ≤
      ((s.calls.map RecordCall.hash).toFinset.erase c.hash).card := by
    refine Finset.card_le_card_of_injOn (fun b => (s.shared b).hash) ?_ ?_
    · intro b inRange
      have hb := Finset.mem_range.mp inRange
      obtain ⟨d, inCalls', claimer⟩ := exists_claimer run (full b hb).1
      have held := ((sound_of_exec init run).2 d inCalls').claimed claimer
      exact Finset.mem_coe.mpr (Finset.mem_erase.mpr ⟨(full b hb).2,
        List.mem_toFinset.mpr (List.mem_map.mpr ⟨d, inCalls', held.2.symm⟩)⟩)
    · intro a inRange b inRange' same
      have ha := Finset.mem_range.mp inRange
      exact hash_unique init run ha (Finset.mem_range.mp inRange') (full a ha).1 same
  have own : c.hash ∈ (s.calls.map RecordCall.hash).toFinset :=
    List.mem_toFinset.mpr (List.mem_map.mpr ⟨c, inCalls, rfl⟩)
  rw [Finset.card_range] at others
  have := Finset.card_erase_lt_of_mem own
  omega

end Returned

/-- **`record` is exact and all-or-nothing under any interleaving.** -/
theorem record_exact_and_all_or_nothing (init : st.Initialised env)
    (run : (tableProgram st).Exec withFrames TableState.empty moves s) :
    ((∀ a b, a < st.buckets → b < st.buckets → (s.shared a).hash ≠ 0 →
        (s.shared a).hash = (s.shared b).hash → a = b) ∧
      ∀ moves' s', (tableProgram st).Exec withFrames s moves' s' →
        ∀ b, (s.shared b).hash ≠ 0 → (s'.shared b).hash = (s.shared b).hash) ∧
    (∀ i c, s.procs[i]? = some (.record c) →
      c.visited ≤ st.buckets ∧ moves.countP (Move.isActOf i) ≤ 2 * st.buckets + 15 ∧
        ((∃ outcome, c.pc = .returned outcome) ∨
          ∃ s', (tableProgram st).step s (.act i ()) = some s')) ∧
    (s.Quiescent → ∀ h, h ≠ 0 →
      (∃ b, b < st.buckets ∧ (s.shared b).hash = h ∧
        (∀ b', b' < st.buckets → (s.shared b').hash = h → b' = b) ∧
        (s.shared b).count.toNat = (s.events h).length % 2 ^ 64 ∧
        (s.shared b).totalBytes.toNat = s.eventBytes h % 2 ^ 64 ∧
        ∀ c ∈ s.events h, c.pc ≠ .returned .dropped) ∨
      ((∀ b, b < st.buckets → (s.shared b).hash ≠ h) ∧
        ∀ c ∈ s.events h, c.pc = .returned .dropped)) ∧
    ((s.calls.map RecordCall.hash).toFinset.card ≤ st.buckets →
      ∀ c ∈ s.calls, c.pc ≠ .returned .dropped) := by
  refine ⟨⟨fun a b => hash_unique init run, fun moves' s' rest => hashKept_of_exec rest⟩,
    fun i c => record_returns init run, ?_, ?_⟩
  · intro quiescent h nonzero
    by_cases held : ∃ b, b < st.buckets ∧ (s.shared b).hash = h
    · obtain ⟨b, hb, rfl⟩ := held
      refine .inl ⟨b, hb, rfl, ?_, count_eq init run quiescent hb nonzero,
        totalBytes_eq init run quiescent hb nonzero, ?_⟩
      · exact fun b' hb' same => (hash_unique init run hb hb' nonzero same.symm).symm
      · intro c inEvents dropped
        obtain ⟨inCalls, own⟩ := List.mem_filter.mp inEvents
        have slot := (counted_iff init run quiescent hb nonzero inCalls).1.mpr (by simpa using own)
        rw [dropped] at slot
        cases slot
    · refine .inr ⟨fun b hb same => held ⟨b, hb, same⟩, fun c inEvents => ?_⟩
      obtain ⟨inCalls, own⟩ := List.mem_filter.mp inEvents
      obtain ⟨outcome, pc⟩ := quiescent c inCalls
      rcases ((sound_of_exec init run).2 c inCalls).returned (frames_of_exec run c inCalls) pc with
        ⟨b, hb, same, _, _⟩ | ⟨rfl, _⟩
      · exact absurd ⟨b, hb, same.trans (by simpa using own)⟩ held
      · exact pc
  · intro few c inCalls dropped
    have := buckets_lt_of_dropped init run inCalls dropped
    omega

/-! Two calls with one trace race for the same free bucket: both see it free, the
first claims it, and the increments of the second land before the first has
published. -/

def raceStatics : Statics := ⟨0x7f0000000000, 64, 63⟩

theorem raceStatics_initialised : raceStatics.Initialised (some ['6', '4']) :=
  ⟨by decide, by decide, by decide⟩

def raceFrames : Frames := ⟨(Vector.replicate 8 0).set 0 0x1111, ⟨1, by decide⟩⟩

/-- `n` steps of process `i`. -/
def turns (i n : Nat) : List (Move Call Unit) := List.replicate n (.act i ())

def raceMoves : List (Move Call Unit) :=
  .start (.record raceFrames 10) :: .start (.record raceFrames 20) :: turns 0 4 ++ turns 1 4 ++
    turns 0 1 ++ turns 1 1 ++ turns 0 1 ++ turns 1 2 ++ turns 0 3

def raceEnd : TableState :=
  ((tableProgram raceStatics).run withFrames TableState.empty raceMoves).get (by decide)

theorem raceRun : (tableProgram raceStatics).Exec withFrames TableState.empty raceMoves raceEnd :=
  Exec.of_run (Option.some_get (by decide)).symm

theorem record_exact_and_all_or_nothing_race :
    ∃ b, b < 64 ∧ (raceEnd.shared b).hash = raceFrames.hash ∧
      (raceEnd.shared b).count.toNat = 2 ∧ (raceEnd.shared b).totalBytes.toNat = 30 := by
  rcases (record_exact_and_all_or_nothing raceStatics_initialised raceRun).2.2.1 (by decide)
    raceFrames.hash (by decide) with ⟨b, hb, held, _, count, bytes, _⟩ | ⟨_, dropped⟩
  · exact ⟨b, hb, held, count.trans (by decide), bytes.trans (by decide)⟩
  · exact absurd dropped (by decide)

end ModAlloc
