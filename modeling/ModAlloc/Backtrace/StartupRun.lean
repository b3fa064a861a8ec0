import ModAlloc.Backtrace.StartupTable

/-!
# Every run from the start of the process

Whatever the calls read while the statics are being stored, they work on one table and
within its pages, and no event is lost or counted twice: what a bucket holds is what the
calls have added there, each of them under its own hash. What the race costs is that
bucket 0 may hold a hash that has another bucket, too, and that a call which read the
mask as zero drops its event when bucket 0 is taken (`StartState.Safe`).
-/

namespace ModAlloc

open Interleaving Interleaving.Program

variable {moves : List (Move (Option (List Char) × Call) Nat)} {s s' : StartState}

/-! ## Invariants of the pool -/

/-- What holds of the memory and of every call. -/
structure StartState.Sound (s : StartState) : Prop where
  numbered : s.Numbered
  memory : s.shared.Sound
  calls : Everywhere StartCall.Sound s

theorem StartMemory.Sound.initial : StartMemory.initial.Sound where
  init := .initial
  null := rfl
  table := .empty

theorem startProgram_undisturbed {ok : StartState → Move (Option (List Char) × Call) Nat → Prop} :
    Undisturbed startProgram ok StartState.Numbered StartMemory.Sound StartCall.Sound where
  start_self := by
    intro s arg mem c _ _ memSound _ started
    obtain ⟨rfl, rfl⟩ := startProgram_start started
    refine ⟨memSound, ?_⟩
    rcases StartCall.init_cases s.procs.length arg.1 arg.2 with begun | none
    · simp only [StartCall.Sound, begun]
      exact ⟨trivial, trivial, fun pc => InitPc.noConfusion pc⟩
    · simp only [StartCall.Sound, none]
  start_other := by
    intro s arg mem c i d _ _ _ _ started _ sound
    obtain ⟨rfl, _⟩ := startProgram_start started
    exact sound
  act_self := by
    intro s i c answer mem c' _ _ memSound _ sound acted
    exact (startProgram_act acted).sound memSound sound
  act_other := by
    intro s i c answer mem c' j d numbered _ memSound at_i sound acted other at_j soundOther
    exact (startProgram_act acted).sound_other memSound sound soundOther
      (numbered i c at_i) (numbered j d at_j) other

theorem startSound_of_exec {ok : StartState → Move (Option (List Char) × Call) Nat → Prop}
    (run : startProgram.Exec ok StartState.initial moves s) : s.Sound := by
  have numbered : StartState.initial.Numbered := by
    intro i c atIndex
    cases atIndex
  obtain ⟨memory, calls⟩ := Exec.interference
    (fun _ _ _ numbered _ stepped => StartState.Numbered.step numbered stepped)
    startProgram_undisturbed run numbered ⟨.initial, fun i c atIndex => by cases atIndex⟩
  exact ⟨Exec.invariant _ (fun _ _ _ numbered _ stepped => StartState.Numbered.step numbered stepped)
    run numbered, memory, calls⟩

/-- A call on the table was made with these frames, and there is at least one. -/
def StartCall.Framed (c : StartCall) : Prop :=
  match c.phase with
  | .noFrames => True
  | .running _ (.record r) => c.call = .record r.frames r.size ∧ 1 ≤ r.frames.count.val
  | _ => ∀ frames size, c.call = .record frames size → 1 ≤ frames.count.val

theorem StartCall.Trans.framed {mem mem' : StartMemory} {c c' : StartCall}
    (trans : StartCall.Trans mem c mem' c') (framed : c.Framed) : c'.Framed := by
  cases trans with
  | @init i i' _ phase _ =>
      simp only [StartCall.Framed, phase] at framed
      rcases StartCall.resume_cases c.call i' with same | ⟨gone, _⟩ | ⟨_, st, _, _, runs⟩
      · rw [same]
        exact framed
      · rw [gone]
        exact framed
      · rw [runs]
        cases call : c.call with
        | report => exact fun _ _ none => by cases none
        | record frames size => exact ⟨rfl, framed frames size call⟩
  | record phase trans =>
      simp only [StartCall.Framed, phase] at framed
      simp only [StartCall.Framed, trans.args]
      exact framed
  | scan phase _ =>
      simp only [StartCall.Framed, phase] at framed
      exact framed

theorem framed_of_exec {ok : StartState → Move (Option (List Char) × Call) Nat → Prop}
    (run : startProgram.Exec ok StartState.initial moves s) {i : Nat} {c : StartCall}
    (atIndex : s.procs[i]? = some c) : c.Framed := by
  refine Exec.localInvariant (fun _ c => StartCall.Framed c) ?_ ?_ run
    (fun i c atIndex => by cases atIndex) i c atIndex
  · intro s arg mem c _ started
    obtain ⟨_, rfl⟩ := startProgram_start started
    obtain ⟨env, call⟩ := arg
    cases call with
    | report => exact fun _ _ none => by cases none
    | record frames size =>
        by_cases none : frames.count.val = 0
        · simp only [StartCall.Framed, StartCall.init, if_pos none]
        · simp only [StartCall.Framed, StartCall.init, if_neg none]
          rintro frames' size' same
          cases same
          omega
  · intro mem i c answer mem' c' acted framed
    exact (startProgram_act acted).framed framed

/-! ## The calls that are on the table -/

/-- The process of a call that is through `ensure_init`. -/
def StartCall.proc (c : StartCall) : Option Proc :=
  match c.phase with
  | .running _ p => some p
  | _ => none

/-- The table and the processes that work on it. -/
def StartState.work (s : StartState) : TableState := ⟨s.shared.table, s.procs.filterMap StartCall.proc⟩

/-- What a call has put into the table. -/
def StartCall.share {M : Type*} [Zero M] (f : Proc → M) (c : StartCall) : M := (c.proc.map f).getD 0

theorem StartState.sum_work {M : Type*} [AddMonoid M] (s : StartState) (f : Proc → M) :
    (s.work.procs.map f).sum = (s.procs.map (StartCall.share f)).sum := by
  unfold StartState.work
  induction s.procs with
  | nil => rfl
  | cons c cs ih =>
      cases running : c.proc with
      | none =>
          rw [List.filterMap_cons_none running, List.map_cons, List.sum_cons, ih,
            StartCall.share, running, Option.map_none, Option.getD_none, zero_add]
      | some p =>
          rw [List.filterMap_cons_some running, List.map_cons, List.map_cons, List.sum_cons,
            List.sum_cons, ih, StartCall.share.eq_1 f c, running, Option.map_some, Option.getD_some]

theorem StartState.mem_work {c : RecordCall} : c ∈ s.work.calls ↔
    ∃ (i : Nat) (d : StartCall) (st : Statics), s.procs[i]? = some d ∧ d.phase = .running st (.record c) := by
  rw [mem_calls_iff, StartState.work, List.mem_filterMap]
  constructor
  · rintro ⟨d, inProcs, running⟩
    obtain ⟨i, atIndex⟩ := mem_procs_iff.mp inProcs
    unfold StartCall.proc at running
    split at running
    · cases running
      exact ⟨i, d, _, atIndex, ‹_›⟩
    · cases running
  · rintro ⟨i, d, st, atIndex, phase⟩
    exact ⟨d, List.mem_of_getElem? atIndex, by rw [StartCall.proc, phase]⟩

/-! ## Accounts -/

/-- **An account of one field of one bucket**, from what a `record` step does to it. -/
theorem startAccount_of_exec {M : Type*} [AddCancelCommMonoid M]
    {ok : StartState → Move (Option (List Char) × Call) Nat → Prop} (field : Bucket → M)
    {share : Proc → M} (b : Nat) (blank : field Bucket.empty = 0)
    (enter : ∀ st call, share (Call.enter st call) = 0)
    (scan : ∀ q q', share (.scan q) = share (.scan q'))
    (record : ∀ {st table r table' r'}, RecordCall.Trans st table r table' r' →
      field (table' b) + share (.record r) = field (table b) + share (.record r'))
    (run : startProgram.Exec ok StartState.initial moves s) :
    field (s.work.shared b) = (s.work.procs.map share).sum := by
  rw [StartState.sum_work]
  refine Exec.accountKnown (A := fun s => StartState.Sound s)
    (c := fun (mem : StartMemory) => field (mem.table b)) ?_ ?_ ?_ run ?_ ?_
  · intro s m s' sound cond stepped
    have kept := startProgram_undisturbed.step sound.numbered cond stepped
      ⟨sound.memory, sound.calls⟩
    exact ⟨sound.numbered.step stepped, kept.1, kept.2⟩
  · intro s arg mem c _ _ started
    obtain ⟨rfl, rfl⟩ := startProgram_start started
    have none : StartCall.share share (StartCall.init s.procs.length arg.1 arg.2) = 0 := by
      rcases StartCall.init_cases s.procs.length arg.1 arg.2 with begun | none
      · rw [StartCall.share, StartCall.proc, begun]
        rfl
      · rw [StartCall.share, StartCall.proc, none]
        rfl
    rw [none, add_zero]
  · intro s i c answer mem c' sound atIndex acted
    have known := sound.calls i c atIndex
    cases startProgram_act acted with
    | @init ic ic' _ phase trans =>
        simp only [StartCall.Sound, phase] at known
        rw [(sound.memory.init_step trans known.1 known.2.2).2]
        have none : StartCall.share share c = 0 := by
          rw [StartCall.share, StartCall.proc, phase]
          rfl
        have none' : StartCall.share share (StartCall.resume c.call ic') = 0 := by
          rcases StartCall.resume_cases c.call ic' with same | ⟨gone, _⟩ | ⟨_, st, _, _, runs⟩
          · rw [same]
            rfl
          · rw [gone]
            rfl
          · rw [runs]
            exact enter st c.call
        rw [none, none']
    | @record st r r' table phase trans =>
        simp only [StartCall.Sound, phase] at known
        rw [known.1.base, ← StartMemory.table] at trans
        rw [(sound.memory.record_step known.1 trans known.2).2, StartCall.share, StartCall.proc, phase]
        exact record trans
    | @scan st q q' phase _ =>
        rw [StartCall.share, StartCall.proc, phase]
        exact congrArg (field (s.shared.table b) + ·) (scan q q')
  · exact ⟨fun i c atIndex => (by cases atIndex), .initial, fun i c atIndex => (by cases atIndex)⟩
  · exact blank

section Accounts

variable {ok : StartState → Move (Option (List Char) × Call) Nat → Prop}
  (run : startProgram.Exec ok StartState.initial moves s) (b : Nat)

include run

theorem start_claims : (s.work.shared b).occupied = (s.work.procs.map (Proc.claims b)).sum :=
  startAccount_of_exec Bucket.occupied b rfl (fun _ call => by cases call <;> rfl) (fun _ _ => rfl)
    (fun trans => trans.claims b) run

theorem start_count : (s.work.shared b).count.toNat =
    s.work.tally (fun c => c.pc.countedSlot = some b) (fun _ => 1) % 2 ^ 64 := by
  rw [startAccount_of_exec Bucket.count b rfl (fun _ call => by cases call <;> rfl)
    (fun _ _ => rfl) (fun trans => trans.counts b) run]
  exact TableState.toNat_sum_slots RecordPc.countedSlot (fun _ => 1) (fun _ => rfl) fun _ => rfl

theorem start_bytes : (s.work.shared b).totalBytes.toNat =
    s.work.tally (fun c => c.pc.summedSlot = some b) (fun c => c.size.toNat) % 2 ^ 64 := by
  rw [startAccount_of_exec Bucket.totalBytes b rfl (fun _ call => by cases call <;> rfl)
    (fun _ _ => rfl) (fun trans => trans.bytes b) run]
  exact TableState.toNat_sum_slots RecordPc.summedSlot RecordCall.size (fun _ => rfl) fun _ => rfl

end Accounts

/-! ## Claimers -/

/-- A bucket is claimed by one call. -/
theorem start_claimer_unique {ok : StartState → Move (Option (List Char) × Call) Nat → Prop}
    (run : startProgram.Exec ok StartState.initial moves s) {i j b : Nat} {c d : StartCall}
    {st st' : Statics} {r q : RecordCall} (at_i : s.procs[i]? = some c)
    (phase : c.phase = .running st (.record r)) (at_j : s.procs[j]? = some d)
    (phase' : d.phase = .running st' (.record q)) (claimed : r.pc.claimedSlot = some b)
    (claimed' : q.pc.claimedSlot = some b) : i = j := by
  by_contra ne
  have both := add_le_sum (f := StartCall.share (Proc.claims b)) ne at_i at_j
  have one : (s.work.shared b).occupied ≤ 1 := by
    unfold Bucket.occupied
    split <;> omega
  rw [← StartState.sum_work, ← start_claims run b] at both
  have share : StartCall.share (Proc.claims b) c = 1 := by
    rw [StartCall.share, StartCall.proc, phase, Option.map_some, Option.getD_some, Proc.claims,
      if_pos claimed]
  have share' : StartCall.share (Proc.claims b) d = 1 := by
    rw [StartCall.share, StartCall.proc, phase', Option.map_some, Option.getD_some, Proc.claims,
      if_pos claimed']
  omega

/-- How far a claimer has come, from the start of the process. -/
def StartCall.Filled (mem : StartMemory) (c : StartCall) : Prop :=
  ∀ st r, c.phase = .running st (.record r) → r.Filled mem.table

theorem startFilled_of_exec {ok : StartState → Move (Option (List Char) × Call) Nat → Prop}
    (run : startProgram.Exec ok StartState.initial moves s) : Everywhere StartCall.Filled s := by
  let reached : StartState → Prop := fun s => ∃ moves, startProgram.Exec ok StartState.initial moves s
  have undisturbed : Undisturbed startProgram ok reached (fun _ => True) StartCall.Filled :=
    { start_self := by
        intro s arg mem c _ _ _ _ started
        obtain ⟨_, rfl⟩ := startProgram_start started
        refine ⟨trivial, fun st r phase => ?_⟩
        rcases StartCall.init_cases s.procs.length arg.1 arg.2 with begun | none
        · cases begun.symm.trans phase
        · cases none.symm.trans phase
      start_other := by
        intro s arg mem c i d _ _ _ _ started _ filled
        obtain ⟨rfl, _⟩ := startProgram_start started
        exact filled
      act_self := by
        intro s i c answer mem c' ⟨_, run⟩ _ _ atIndex filled acted
        have sound := startSound_of_exec run
        have known := sound.calls i c atIndex
        have framed := framed_of_exec run atIndex
        refine ⟨trivial, ?_⟩
        intro st r' phase'
        cases startProgram_act acted with
        | @init ic ic' _ phase trans =>
            rcases StartCall.resume_cases c.call ic' with same | ⟨gone, _⟩ | ⟨_, st, _, _, runs⟩
            · cases (congrArg StartCall.phase same).symm.trans phase'
            · cases (congrArg StartCall.phase gone).symm.trans phase'
            · have entered := (congrArg StartCall.phase runs).symm.trans phase'
              cases call : c.call with
              | report =>
                  rw [call] at entered
                  cases entered
              | record frames size =>
                  rw [call] at entered
                  cases entered
                  exact RecordCall.Filled.of_unclaimed rfl
        | @record st r r' table phase trans =>
            cases phase'
            simp only [StartCall.Sound, phase] at known
            simp only [StartCall.Framed, phase] at framed
            rw [known.1.base, ← StartMemory.table] at trans
            rw [(sound.memory.record_step known.1 trans known.2).2]
            exact trans.filled sound.memory.table.blank framed.2 (filled st r phase)
        | scan _ _ => cases phase'
      act_other := by
        intro s i c answer mem c' j d ⟨_, run⟩ cond _ atIndex _ acted other at_j filled
        have sound := startSound_of_exec run
        have known := sound.calls i c atIndex
        intro st' q phase'
        have stepped := step_act_eq atIndex acted
        cases startProgram_act acted with
        | init phase trans =>
            simp only [StartCall.Sound, phase] at known
            rw [(sound.memory.init_step trans known.1 known.2.2).2]
            exact filled st' q phase'
        | @record st r r' table phase trans =>
            simp only [StartCall.Sound, phase] at known
            rw [known.1.base, ← StartMemory.table] at trans
            rw [(sound.memory.record_step known.1 trans known.2).2]
            refine (filled st' q phase').congr fun b claimed => trans.others_kept ?_
            intro claimed'
            -- after the step both calls would have claimed the bucket
            have own := List.getElem?_set_self (a := StartCall.mk c.call (.running st (.record r')))
              (List.getElem?_eq_some_iff.mp atIndex).1
            have others : (s.procs.set i ⟨c.call, .running st (.record r')⟩)[j]? = some d := by
              rw [List.getElem?_set_ne (Ne.symm other), at_j]
            exact other (start_claimer_unique (run.snoc cond stepped) others phase' own rfl claimed
              claimed')
        | scan phase _ => exact filled st' q phase' }
  exact (Exec.interference (A := reached) (G := fun _ => True) (I := StartCall.Filled)
    (fun s m s' ⟨moves, run⟩ cond stepped => ⟨moves ++ [m], run.snoc cond stepped⟩)
    undisturbed run ⟨[], .nil _⟩ ⟨trivial, fun i c atIndex => by cases atIndex⟩).2

/-! ## The whole run -/

/-- What the race for the table leaves true of it. -/
structure StartState.Safe (s : StartState) : Prop where
  /-- A call works on the published table, and within the pages that are mapped there. -/
  inBounds : ∀ (i : Nat) (c : StartCall) (st : Statics) (p : Proc), s.procs[i]? = some c →
    c.phase = .running st p → st.base = s.shared.init.statics.base ∧ ∃ owner env,
      (owner, ⟨st.base, configuredBucketCount env * bucketSize⟩) ∈ s.shared.init.live ∧
        s.shared.init.capacity = configuredBucketCount env ∧
        ∀ b, p.bucket = some b → b < configuredBucketCount env
  /-- A bucket counts the events that were added to it. -/
  count : ∀ b, (s.work.shared b).count.toNat =
    s.work.tally (fun c => c.pc.countedSlot = some b) (fun _ => 1) % 2 ^ 64
  totalBytes : ∀ b, (s.work.shared b).totalBytes.toNat =
    s.work.tally (fun c => c.pc.summedSlot = some b) (fun c => c.size.toNat) % 2 ^ 64
  /-- They have the hash of the bucket. -/
  own : ∀ c ∈ s.work.calls, ∀ b, c.pc.countedSlot = some b → (s.work.shared b).hash = c.hash
  /-- A hash has one bucket, or bucket 0 and one more. -/
  unique : ∀ a b, 0 < a → a < s.shared.init.capacity → 0 < b → b < s.shared.init.capacity →
    (s.work.shared a).hash ≠ 0 → (s.work.shared a).hash = (s.work.shared b).hash → a = b
  /-- A published bucket holds the frames of the call that claimed it. -/
  published : ∀ b, (s.work.shared b).frameCount ≠ 0 → ∃ c ∈ s.work.calls,
    c.pc = .returned (.claimed b) ∧ (s.work.shared b).hash = c.hash ∧
      (s.work.shared b).sampleFrames = firstFrames c.frames.frames c.frames.count ∧
      (s.work.shared b).frameCount = BitVec.ofNat 64 c.frames.count
  /-- An event that is not in the table was dropped: every bucket held another hash, or
  the call had read the mask as zero and bucket 0 did. -/
  returned : ∀ (i : Nat) (c : StartCall) (st : Statics) (r : RecordCall) (outcome : Outcome),
    s.procs[i]? = some c → c.phase = .running st (.record r) → r.pc = .returned outcome →
      (∃ b, b < s.shared.init.capacity ∧ (s.work.shared b).hash = r.hash ∧
        r.pc.countedSlot = some b ∧ r.pc.summedSlot = some b) ∨
      (outcome = .dropped ∧ ∀ b, (st.mask = 0 → b = 0) → b < s.shared.init.capacity →
        (s.work.shared b).hash ≠ 0 ∧ (s.work.shared b).hash ≠ r.hash)

/-- A call that has read its statics partly touches buckets of the table only. -/
theorem Statics.Partly.bucket_lt {mem : InitMemory} {st : Statics} {table : Memory} {p : Proc} {b : Nat}
    (read : st.Partly mem.statics) (memSound : mem.Sound) (known : p.InTable st table)
    (next : p.bucket = some b) : b < mem.capacity := by
  obtain ⟨masked, size, pos⟩ := read.view memSound
  obtain ⟨_, _, _, _, buckets, _⟩ := memSound.table read.nonnull
  cases p with
  | record r =>
      have := RecordCall.Sound.bucket_lt known masked next
      rcases size with one | whole <;> omega
  | scan q =>
      have := known b next
      rcases read.buckets with zero | same <;> omega

theorem safe_of_exec {ok : StartState → Move (Option (List Char) × Call) Nat → Prop}
    (run : startProgram.Exec ok StartState.initial moves s) : s.Safe := by
  have sound := startSound_of_exec run
  have onTable : ∀ c ∈ s.work.calls, ∃ st : Statics, c.Sound st.view s.shared.table ∧
      c.Filled s.shared.table := by
    intro c inWork
    obtain ⟨i, d, st, atIndex, phase⟩ := StartState.mem_work.mp inWork
    have known := sound.calls i d atIndex
    simp only [StartCall.Sound, phase] at known
    exact ⟨st, known.2, startFilled_of_exec run i d atIndex st c phase⟩
  refine ⟨?_, start_count run, start_bytes run, ?_, ?_, ?_, ?_⟩
  · intro i c st p atIndex phase
    have known := sound.calls i c atIndex
    simp only [StartCall.Sound, phase] at known
    obtain ⟨read, known⟩ := known
    obtain ⟨owner, env, capacity, region, _⟩ := sound.memory.init.table read.nonnull
    refine ⟨read.base, owner, env, ?_, capacity, fun b next => ?_⟩
    · rw [read.base, ← capacity]
      exact region
    · rw [← capacity]
      exact read.bucket_lt sound.memory.init known next
  · intro c inWork b counted
    obtain ⟨st, known, _⟩ := onTable c inWork
    exact (known.counted counted).2
  · intro a b posA ltA posB ltB claimed same
    exact sound.memory.table.unique ltA ltB (Nat.ne_of_gt posA) (Nat.ne_of_gt posB) claimed same
  · intro b published
    have claimed : (s.shared.table b).hash ≠ 0 := by
      intro free
      have published' : (s.shared.table b).frameCount ≠ 0 := published
      rw [sound.memory.table.blank b free] at published'
      exact published' rfl
    obtain ⟨c, inWork, claimer⟩ := TableState.exists_claimer (start_claims run b) claimed
    obtain ⟨st, known, filled⟩ := onTable c inWork
    have held := known.claimed claimer
    obtain ⟨pc, frames, count⟩ := filled.of_published claimer published
    exact ⟨c, inWork, pc, held.2, frames, count⟩
  · intro i c st r outcome atIndex phase pc
    have known := sound.calls i c atIndex
    have framed := framed_of_exec run atIndex
    simp only [StartCall.Sound, phase] at known
    simp only [StartCall.Framed, phase] at framed
    obtain ⟨read, known⟩ := known
    obtain ⟨_, size, pos⟩ := read.view sound.memory.init
    rcases RecordCall.Sound.returned known framed.2 pc with ⟨b, inRange, held, slots⟩ | ⟨dropped, full⟩
    · refine .inl ⟨b, ?_, held, slots⟩
      rcases size with one | whole <;> omega
    · refine .inr ⟨dropped, fun b zero inRange => full b ?_⟩
      rcases size with one | whole
      · have : st.mask = 0 := Nat.succ.inj one
        rw [zero this, one]
        exact Nat.one_pos
      · exact whole ▸ inRange

/-- A hash stays in its bucket. -/
theorem startHashKept_of_exec {moves' : List (Move (Option (List Char) × Call) Nat)}
    (run : startProgram.Exec anyMove StartState.initial moves s)
    (rest : startProgram.Exec anyMove s moves' s') : s.work.shared.HashKept s'.work.shared := by
  refine Exec.snocInduction (motive := fun _ (s' : StartState) => s.work.shared.HashKept s'.work.shared) (.refl _) ?_ rest
  intro ms s₁ m s₂ sofar _ stepped kept
  refine kept.trans ?_
  have sound := startSound_of_exec (run.append sofar)
  cases m with
  | start arg =>
      obtain ⟨mem, c, started, rfl⟩ := step_start stepped
      obtain ⟨rfl, _⟩ := startProgram_start started
      exact .refl _
  | act i answer =>
      obtain ⟨c, mem, c', atIndex, acted, rfl⟩ := step_act stepped
      have known := sound.calls i c atIndex
      show s₁.shared.table.HashKept mem.table
      cases startProgram_act acted with
      | init phase trans =>
          simp only [StartCall.Sound, phase] at known
          rw [(sound.memory.init_step trans known.1 known.2.2).2]
          exact .refl _
      | record phase trans =>
          simp only [StartCall.Sound, phase] at known
          rw [known.1.base, ← StartMemory.table] at trans
          rw [(sound.memory.record_step known.1 trans known.2).2]
          exact trans.hashKept
      | scan phase _ => exact .refl _

/-- A published bucket keeps its frames. -/
theorem startPublished_kept {moves' : List (Move (Option (List Char) × Call) Nat)}
    (run : startProgram.Exec anyMove StartState.initial moves s)
    (rest : startProgram.Exec anyMove s moves' s') {b : Nat}
    (published : (s.work.shared b).frameCount ≠ 0) :
    (s'.work.shared b).sampleFrames = (s.work.shared b).sampleFrames ∧
      (s'.work.shared b).frameCount = (s.work.shared b).frameCount := by
  obtain ⟨c, inWork, pc, _, frames, count⟩ := (safe_of_exec run).published b published
  obtain ⟨i, d, st, atIndex, phase⟩ := StartState.mem_work.mp inWork
  have halted : ∀ mem answer, startProgram.act mem i d answer = none := by
    intro mem answer
    simp only [startProgram, StartCall.step, phase, Proc.step, RecordCall.step, pc, Option.map_none]
  have filled := startFilled_of_exec (run.append rest) i d (rest.stuck halted atIndex) st c phase
  simp only [RecordCall.Filled, pc] at filled
  rw [frames, count]
  exact filled

/-- **No interleaving of the first events harms the table**, though the statics are
published one after the other: the state is safe, and from there on hashes stay where
they are and published buckets keep their frames. -/
theorem startup_safe (run : startProgram.Exec anyMove StartState.initial moves s) :
    s.Safe ∧ ∀ moves' (s' : StartState), startProgram.Exec anyMove s moves' s' →
      s.work.shared.HashKept s'.work.shared ∧ ∀ b, (s.work.shared b).frameCount ≠ 0 →
        (s'.work.shared b).sampleFrames = (s.work.shared b).sampleFrames ∧
          (s'.work.shared b).frameCount = (s.work.shared b).frameCount :=
  ⟨safe_of_exec run, fun _ _ rest =>
    ⟨startHashKept_of_exec run rest, fun _ published => startPublished_kept run rest published⟩⟩

/-! The second call reads the mask before it has been stored and puts its hash into
bucket 0; the first call stores it and puts the same hash where it belongs. -/

def strayMoves : List (Move (Option (List Char) × Call) Nat) :=
  .start (some ['6', '4'], .record raceFrames 10) :: .start (none, .record raceFrames 20) ::
    [.act 0 0, .act 0 0x7f0000000000, .act 0 0] ++ List.replicate 9 (.act 1 0) ++
    List.replicate 8 (.act 0 0)

def strayEnd : StartState :=
  (startProgram.run anyMove StartState.initial strayMoves).get (by decide)

theorem startup_safe_stray : strayEnd.Safe ∧ (strayEnd.work.shared 0).hash = raceFrames.hash ∧
    (strayEnd.work.shared 37).hash = raceFrames.hash := by
  have run : startProgram.Exec anyMove StartState.initial strayMoves strayEnd :=
    Exec.of_run (Option.some_get (by decide)).symm
  exact ⟨(startup_safe run).1, by decide, by decide⟩

end ModAlloc
