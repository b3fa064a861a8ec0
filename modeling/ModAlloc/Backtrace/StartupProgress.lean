import ModAlloc.Backtrace.StartupRun

/-!
# Waiting for the table

The loser of the race in `ensure_init_slow` spins until it sees the bucket count, so that
on the way to the table one call can wait for another. It waits for a single step of a
single call: as long as a published table has no bucket count, there is one call whose
next step stores it, and that step ends every wait (`Publishing`). All other steps bring
their call nearer to its end (`StartCall.steps`), so that no schedule without vain spins
is longer than the table allows (`startup_lock_free`).
-/

namespace ModAlloc

open Interleaving Interleaving.Program

variable {moves : List (Move (Option (List Char) × Call) Nat)} {s s' : StartState}
  {mem mem' : StartMemory} {c c' d : StartCall} {st : Statics} {table : Memory}

namespace StartCall

/-- The call is in the loop of the loser. -/
def awaiting (c : StartCall) : Bool :=
  match c.phase with
  | .initialising ⟨_, _, _, .awaitBuckets _⟩ => true
  | _ => false

/-- The call spins: its loop has nothing to see yet. -/
def Spins (mem : StartMemory) (c : StartCall) : Prop :=
  c.awaiting = true ∧ mem.init.statics.buckets = 0

instance (mem : StartMemory) (c : StartCall) : Decidable (c.Spins mem) :=
  inferInstanceAs (Decidable (_ ∧ _))

/-- The next step of the call is the winner's `TABLE_BUCKETS.store`. -/
def Publishing (c : StartCall) : Prop := ∃ i, c.phase = .initialising i ∧ i.pc = .storeBuckets

/-- The call has come to its end. -/
def Over (c : StartCall) : Prop :=
  match c.phase with
  | .initialising _ => False
  | .running _ (.record r) => ∃ outcome, r.pc = .returned outcome
  | .running _ (.scan q) => q.pc = .returned
  | .noTable | .noFrames => True

/-- What `alloc_pages` can return to the call: null, or pages where nothing is mapped. -/
def Offered (mem : StartMemory) (c : StartCall) (answer : Nat) : Prop :=
  ∀ i, c.phase = .initialising i → i.pc = .allocPages → answer = 0 ∨ mem.init.Fresh answer i.bytes

end StartCall

/-- No step of a loop that has nothing to see. -/
def notVain (s : StartState) : Move (Option (List Char) × Call) Nat → Prop
  | .start _ => True
  | .act i _ => ∀ c ∈ s.procs[i]?, ¬ c.Spins s.shared

instance (s : StartState) : ∀ m, Decidable (notVain s m)
  | .start _ => inferInstanceAs (Decidable True)
  | .act i _ => inferInstanceAs (Decidable (∀ c ∈ s.procs[i]?, ¬ c.Spins s.shared))

/-! ## Who publishes -/

theorem StartCall.Sound.publishing (sound : c.Sound mem) (publishing : c.Publishing) :
    ∃ i, c.phase = .initialising i ∧ i.pc = .storeBuckets ∧ i.own ∈ mem.init.live ∧
      mem.init.statics.base = i.pages := by
  obtain ⟨i, phase, pc⟩ := publishing
  simp only [StartCall.Sound, phase] at sound
  have known := sound.1
  simp only [InitCall.forget, InitCall.Sound, pc] at known
  exact ⟨i, phase, pc, known⟩

/-- Two calls that are about to publish have mapped the same pages, so they are one. -/
theorem publishing_unique (sound : s.Sound) {i j : Nat} (at_i : s.procs[i]? = some c)
    (at_j : s.procs[j]? = some d) (left : c.Publishing) (right : d.Publishing) : i = j := by
  obtain ⟨ic, phase, _, own, base⟩ := (sound.calls i c at_i).publishing left
  obtain ⟨id, phase', _, own', base'⟩ := (sound.calls j d at_j).publishing right
  have same := sound.memory.init.apart _ own _ own' (base.symm.trans base')
  rw [← sound.numbered i c at_i ic phase, ← sound.numbered j d at_j id phase']
  exact congrArg Prod.fst same

/-- What a step of `ensure_init` means for those who wait. -/
theorem InitCall.Trans.publishing {init init' : InitMemory} {i i' : InitCall}
    (trans : InitCall.Trans init i init' i') :
    (init'.statics.base = init.statics.base ∧ init'.statics.buckets = init.statics.buckets ∧
        i.pc ≠ .storeBuckets ∧ i'.pc ≠ .storeBuckets) ∨
      (init.statics.base = 0 ∧ init'.statics.buckets = init.statics.buckets ∧
        i.pc ≠ .storeBuckets ∧ i'.pc = .storeBuckets) ∨
      (i.pc = .storeBuckets ∧ init'.statics.buckets = i.buckets ∧ i'.pc ≠ .storeBuckets) := by
  cases trans with
  | win pc null => exact .inr (.inl ⟨null, rfl, by rw [pc]; exact InitPc.noConfusion, rfl⟩)
  | storeBuckets pc => exact .inr (.inr ⟨pc, rfl, InitPc.noConfusion⟩)
  | seeNull pc _ | seeBase pc _ | loadBuckets pc | loadMask pc | allocFails pc | alloc pc _ _
  | lose pc _ | storeMask pc | freePages pc | spin pc | seeBuckets pc _ | awaitMask pc =>
      exact .inl ⟨rfl, rfl, by rw [pc]; exact InitPc.noConfusion, InitPc.noConfusion⟩

theorem StartCall.publishing_resume {call : Call} {i : InitCall} :
    (StartCall.resume call i).Publishing ↔ i.pc = .storeBuckets := by
  constructor
  · rintro ⟨i', phase, pc⟩
    rcases StartCall.resume_cases call i with same | ⟨gone, _⟩ | ⟨_, _, _, _, runs⟩
    · rw [same] at phase
      cases phase
      exact pc
    · rw [gone] at phase
      cases phase
    · rw [runs] at phase
      cases phase
  · intro pc
    refine ⟨i, ?_, pc⟩
    rw [StartCall.resume, pc]

/-- A winner that has not stored the bucket count yet finds it unset; and as long as a
published table has none, there is such a winner. -/
structure StartState.Awaited (s : StartState) : Prop where
  unset : ∀ (i : Nat) (c : StartCall), s.procs[i]? = some c → c.Publishing →
    s.shared.init.statics.buckets = 0
  winner : s.shared.init.statics.base ≠ 0 → s.shared.init.statics.buckets ≠ 0 ∨
    ∃ (i : Nat) (c : StartCall), s.procs[i]? = some c ∧ c.Publishing

theorem StartState.Awaited.start (awaited : s.Awaited) {arg : Option (List Char) × Call}
    (stepped : startProgram.step s (.start arg) = some s') : s'.Awaited := by
  obtain ⟨mem, c, started, rfl⟩ := step_start stepped
  obtain ⟨rfl, rfl⟩ := startProgram_start started
  refine ⟨fun j d at_j publishing => ?_, fun set => ?_⟩
  · rcases Nat.lt_or_ge j s.procs.length with old | new
    · exact awaited.unset j d ((List.getElem?_append_left old).symm.trans at_j) publishing
    · rw [List.getElem?_append_right new, List.getElem?_singleton] at at_j
      split at at_j
      · cases at_j
        obtain ⟨i, phase, pc⟩ := publishing
        rcases StartCall.init_cases s.procs.length arg.1 arg.2 with begun | none
        · cases begun.symm.trans phase
          cases pc
        · cases none.symm.trans phase
      · cases at_j
  · rcases awaited.winner set with counted | ⟨j, d, at_j, publishing⟩
    · exact .inl counted
    · refine .inr ⟨j, d, ?_, publishing⟩
      exact (List.getElem?_append_left (List.getElem?_eq_some_iff.mp at_j).1).trans at_j

/-- A step that neither wins the race nor publishes. -/
theorem StartState.Awaited.frame (awaited : s.Awaited) {i : Nat} (at_i : s.procs[i]? = some c)
    (base : mem.init.statics.base = s.shared.init.statics.base)
    (buckets : mem.init.statics.buckets = s.shared.init.statics.buckets)
    (before : ¬ c.Publishing) (after : ¬ c'.Publishing) :
    StartState.Awaited ⟨mem, s.procs.set i c'⟩ := by
  have inRange : i < s.procs.length := (List.getElem?_eq_some_iff.mp at_i).1
  refine ⟨fun j d at_j publishing => ?_, fun set => ?_⟩
  · rw [buckets]
    by_cases own : i = j
    · subst own
      rw [List.getElem?_set_self inRange] at at_j
      cases at_j
      exact absurd publishing after
    · rw [List.getElem?_set_ne own] at at_j
      exact awaited.unset j d at_j publishing
  · rw [base] at set
    rw [buckets]
    rcases awaited.winner set with counted | ⟨j, d, at_j, publishing⟩
    · exact .inl counted
    · refine .inr ⟨j, d, ?_, publishing⟩
      have other : i ≠ j := by
        rintro rfl
        exact before (Option.some.inj (at_i.symm.trans at_j) ▸ publishing)
      exact (List.getElem?_set_ne other).trans at_j

theorem StartState.Awaited.act (awaited : s.Awaited) (sound : s.Sound) {i answer : Nat}
    (stepped : startProgram.step s (.act i answer) = some s') : s'.Awaited := by
  obtain ⟨c, mem, c', at_i, acted, rfl⟩ := step_act stepped
  have inRange : i < s.procs.length := (List.getElem?_eq_some_iff.mp at_i).1
  cases startProgram_act acted with
  | record phase _ | scan phase _ =>
      refine awaited.frame at_i rfl rfl ?_ ?_
      · rintro ⟨_, initialising, _⟩
        cases phase.symm.trans initialising
      · rintro ⟨_, initialising, _⟩
        cases initialising
  | @init ic ic' init phase trans =>
      have publishing : c.Publishing → ic.pc = .storeBuckets := by
        rintro ⟨i', initialising, pc⟩
        cases phase.symm.trans initialising
        exact pc
      rcases trans.publishing with ⟨base, buckets, before, after⟩ | ⟨null, buckets, _, after⟩ |
        ⟨before, buckets, after⟩
      · exact awaited.frame at_i base buckets (fun own => before (publishing own))
          fun own => after (StartCall.publishing_resume.mp own)
      · have unset : s.shared.init.statics.buckets = 0 := by
          rw [(sound.memory.init.unset null).1]
        refine ⟨fun _ _ _ _ => buckets.trans unset, fun _ => .inr ?_⟩
        exact ⟨i, .resume c.call ic', List.getElem?_set_self inRange,
          StartCall.publishing_resume.mpr after⟩
      · have stored : init.statics.buckets ≠ 0 := by
          have := ic.buckets_ge
          rw [buckets]
          omega
        refine ⟨fun j d at_j own => ?_, fun _ => .inl stored⟩
        -- the winner was the only one
        exfalso
        by_cases same : i = j
        · subst same
          rw [List.getElem?_set_self inRange] at at_j
          cases at_j
          exact after (StartCall.publishing_resume.mp own)
        · rw [List.getElem?_set_ne same] at at_j
          exact same (publishing_unique sound at_i at_j ⟨ic, phase, before⟩ own)

theorem awaited_of_exec {ok : StartState → Move (Option (List Char) × Call) Nat → Prop}
    (run : startProgram.Exec ok StartState.initial moves s) : s.Awaited := by
  refine Exec.snocInduction (motive := fun _ s => StartState.Awaited s) ?_ ?_ run
  · refine ⟨fun i c at_i => ?_, fun set => absurd rfl set⟩
    cases at_i
  · intro moves s m s' run _ stepped awaited
    cases m with
    | start arg => exact awaited.start stepped
    | act i answer => exact awaited.act (startSound_of_exec run) stepped

/-! ## The next step -/

theorem StartCall.awaiting_iff : c.awaiting = true ↔
    ∃ i other, c.phase = .initialising i ∧ i.pc = .awaitBuckets other := by
  unfold StartCall.awaiting
  constructor
  · intro awaits
    split at awaits
    case h_1 phase => exact ⟨_, _, phase, rfl⟩
    case h_2 => cases awaits
  · rintro ⟨⟨index, env, pages, pc⟩, other, phase, rfl⟩
    rw [phase]

/-- An `ensure_init` that has returned is behind its call. -/
def StartCall.Unreturned (c : StartCall) : Prop :=
  ∀ i, c.phase = .initialising i → ∀ outcome, i.pc ≠ .returned outcome

theorem StartCall.unreturned_resume (call : Call) (i : InitCall) :
    (StartCall.resume call i).Unreturned := by
  intro i' phase outcome pc
  unfold StartCall.resume at phase
  split at phase
  case h_1 => split at phase <;> cases phase
  case h_2 pc' =>
      cases phase
      exact pc' outcome pc

theorem unreturned_of_exec {ok : StartState → Move (Option (List Char) × Call) Nat → Prop}
    (run : startProgram.Exec ok StartState.initial moves s) {i : Nat} (at_i : s.procs[i]? = some c) :
    c.Unreturned := by
  refine Exec.localInvariant (fun _ c => StartCall.Unreturned c) ?_ ?_ run
    (fun i c at_i => by cases at_i) i c at_i
  · intro s arg mem c _ started
    obtain ⟨_, rfl⟩ := startProgram_start started
    intro i phase outcome pc
    rcases StartCall.init_cases s.procs.length arg.1 arg.2 with begun | none
    · cases begun.symm.trans phase
      cases pc
    · cases none.symm.trans phase
  · intro mem i c answer mem' c' acted _
    cases startProgram_act acted with
    | init _ _ => exact StartCall.unreturned_resume _ _
    | record _ _ | scan _ _ => exact fun _ phase => by cases phase

/-- Where `alloc_pages` answers, every call that is not over can take a step. -/
theorem StartCall.enabled (sound : c.Sound mem) (unreturned : c.Unreturned) (running : ¬ c.Over)
    {answer : Nat}
    (offered : c.Offered mem answer) : (c.step mem answer).isSome := by
  unfold StartCall.step
  cases phase : c.phase with
  | initialising i =>
      rw [Option.isSome_map]
      unfold InitCall.step
      cases pc : i.pc with
      | allocPages =>
          dsimp only
          split
          · rfl
          · rw [if_pos ((offered i phase pc).resolve_left ‹_›)]
            rfl
      | publish =>
          dsimp only
          split <;> rfl
      | returned outcome => exact absurd pc (unreturned i phase outcome)
      | _ => rfl
  | running st p =>
      simp only [StartCall.Sound, phase] at sound
      have nonnull : st.base ≠ 0 := by
        rw [sound.1.base]
        exact sound.1.nonnull
      simp only [StartCall.Over, phase] at running
      rw [Option.isSome_map]
      cases p with
      | record r =>
          rw [Proc.step, Option.isSome_map]
          exact RecordCall.enabled nonnull fun outcome pc => running ⟨outcome, pc⟩
      | scan q =>
          rw [Proc.step, Option.isSome_map]
          unfold ScanCall.step
          cases pc : q.pc with
          | loadBase =>
              dsimp only
              rw [if_neg nonnull]
              rfl
          | returned => exact absurd pc running
          | _ => rfl
  | noTable | noFrames =>
      simp only [StartCall.Over, phase, not_true_eq_false] at running

/-! ## How far a call has come -/

/-- The steps of `ensure_init` before this point, or more. -/
def InitCall.steps (i : InitCall) : Nat :=
  match i.pc with
  | .loadBase => 0
  | .loadBuckets _ | .allocPages => 1
  | .loadMask _ _ | .publish => 2
  | .storeBuckets | .freePages _ => 3
  | .storeMask | .awaitBuckets _ => 4
  | .awaitMask _ _ => 5
  | .returned _ => 6

/-- The steps of a scan before this point, or more: at most twelve for each bucket. -/
def ScanCall.steps (st : Statics) (q : ScanCall) : Nat :=
  match q.pc with
  | .loadBase => 0
  | .loadBuckets => 1
  | .loadMask => 2
  | .loadHash b => 12 * b + 3
  | .loadFrameCount b => 12 * b + 4
  | .loadFrame b _ j _ => 12 * b + 5 + j
  | .loadCount b _ _ => 12 * b + 13
  | .loadBytes b _ _ _ => 12 * b + 14
  | .returned => 12 * st.buckets + 3

def StartCall.steps (c : StartCall) : Nat :=
  match c.phase with
  | .initialising i => i.steps
  | .running _ (.record r) => 6 + r.progress
  | .running st (.scan q) => 6 + q.steps st
  | .noTable => 6
  | .noFrames => 0

/-- A step of `ensure_init` that is not a vain look at the bucket count. -/
theorem InitCall.steps_lt {init init' : InitMemory} {i i' : InitCall} {answer : Nat}
    (stepped : i.step init answer = some (init', i'))
    (sees : ∀ other, i.pc = .awaitBuckets other → init.statics.buckets ≠ 0) : i.steps < i'.steps := by
  cases InitCall.trans_of_step stepped with
  | @spin other pc =>
      have counted := Nat.pos_of_ne_zero (sees other pc)
      simp only [InitCall.step, pc, if_pos counted, Option.some.injEq, Prod.mk.injEq,
        InitCall.mk.injEq, reduceCtorEq, and_false] at stepped
  | seeNull pc _ | seeBase pc _ | loadBuckets pc | loadMask pc | allocFails pc | alloc pc _ _
  | win pc _ | lose pc _ | storeBuckets pc | storeMask pc | freePages pc | seeBuckets pc _
  | awaitMask pc =>
      simp only [InitCall.steps, pc]
      omega

/-- The loop goes on with the next bucket, or ends behind the last. -/
theorem ScanCall.steps_loop {out : List CallSiteStats} {b : Nat} (within : b ≤ st.buckets) :
    ScanCall.steps st ⟨out, ScanCall.loop st b⟩ = 12 * b + 3 := by
  unfold ScanCall.loop
  split
  · rfl
  · show 12 * st.buckets + 3 = 12 * b + 3
    omega

theorem ScanCall.Trans.steps {q q' : ScanCall} (trans : ScanCall.Trans st table q q')
    (below : q.Below st.buckets) : q.steps st < q'.steps st := by
  have next : ∀ {b : Nat} {out : List CallSiteStats}, q.pc.bucket = some b →
      ScanCall.steps st ⟨out, ScanCall.loop st (b + 1)⟩ = 12 * (b + 1) + 3 := by
    intro b out at_b
    exact ScanCall.steps_loop (below b at_b)
  cases trans with
  | loadMask pc =>
      rw [ScanCall.steps_loop (Nat.zero_le _)]
      simp only [ScanCall.steps, pc]
      omega
  | skipFree pc _ | skipUnpublished pc _ | loadBytes pc =>
      rw [next (by rw [pc]; rfl)]
      simp only [ScanCall.steps, pc]
      omega
  | @loadFrame b n j frames more pc | @loadLastFrame b n j frames last pc =>
      simp only [ScanCall.steps, pc]
      omega
  | loadBase pc _ | loadBuckets pc | seeHash pc _ | seePublished pc _ | loadCount pc =>
      simp only [ScanCall.steps, pc]
      omega

theorem ScanCall.steps_le {q : ScanCall} (below : q.Below st.buckets) :
    q.steps st ≤ 12 * st.buckets + 3 := by
  unfold ScanCall.Below at below
  unfold ScanCall.steps
  cases pc : q.pc with
  | loadBase | loadBuckets | loadMask | returned => dsimp only; omega
  | loadHash b | loadFrameCount b | loadFrame b n j _ | loadCount b _ _ | loadBytes b _ _ _ =>
      have := below b (by rw [pc]; rfl)
      dsimp only
      omega

theorem StartCall.steps_resume (call : Call) (i : InitCall) :
    i.steps ≤ (StartCall.resume call i).steps := by
  rcases StartCall.resume_cases call i with same | ⟨gone, pc⟩ | ⟨_, st, pc, _, runs⟩
  · rw [same]
    exact le_rfl
  · rw [gone]
    simp only [InitCall.steps, pc, StartCall.steps, le_refl]
  · rw [runs]
    simp only [InitCall.steps, pc]
    cases call with
    | record frames size => exact Nat.le_add_right _ _
    | report => exact Nat.le_add_right _ _

/-- **Every step but a vain one brings its call nearer to its end.** -/
theorem StartCall.steps_lt {answer : Nat} (sound : c.Sound mem) (sees : ¬ c.Spins mem)
    (stepped : c.step mem answer = some (mem', c')) : c.steps < c'.steps := by
  unfold StartCall.step at stepped
  cases phase : c.phase with
  | initialising i =>
      simp only [phase] at stepped
      obtain ⟨⟨init, i'⟩, inner, eq⟩ := Option.map_eq_some_iff.mp stepped
      cases eq
      have further := InitCall.steps_lt inner fun other pc unset =>
        sees ⟨StartCall.awaiting_iff.mpr ⟨i, other, phase, pc⟩, unset⟩
      rw [StartCall.steps, phase]
      exact Nat.lt_of_lt_of_le further (StartCall.steps_resume c.call i')
  | running st p =>
      simp only [StartCall.Sound, phase] at sound
      simp only [phase] at stepped
      obtain ⟨⟨table, p'⟩, inner, eq⟩ := Option.map_eq_some_iff.mp stepped
      cases eq
      cases p with
      | record r =>
          obtain ⟨⟨table', r'⟩, recorded, same⟩ := Option.map_eq_some_iff.mp inner
          cases same
          have further := (RecordCall.trans_of_step recorded).progress
          simp only [StartCall.steps, phase]
          omega
      | scan q =>
          obtain ⟨q', scanned, same⟩ := Option.map_eq_some_iff.mp inner
          cases same
          have further := (ScanCall.trans_of_step scanned).steps sound.2
          simp only [StartCall.steps, phase]
          omega
  | noTable | noFrames =>
      simp only [phase, reduceCtorEq] at stepped

theorem InitCall.steps_le (i : InitCall) : i.steps ≤ 6 := by
  unfold InitCall.steps
  split <;> decide

theorem StartCall.Sound.steps_le (sound : c.Sound mem) (memSound : mem.Sound) :
    c.steps ≤ 12 * mem.init.capacity + 21 := by
  unfold StartCall.Sound at sound
  cases phase : c.phase with
  | initialising i =>
      have := i.steps_le
      simp only [StartCall.steps, phase]
      omega
  | running st p =>
      simp only [phase] at sound
      obtain ⟨read, inTable⟩ := sound
      obtain ⟨masked, size, pos⟩ := read.view memSound.init
      cases p with
      | record r =>
          have visited := RecordCall.Sound.visited_le inTable
          have := r.progress_le
          simp only [StartCall.steps, phase]
          omega
      | scan q =>
          obtain ⟨_, _, _, _, count, _⟩ := memSound.init.table read.nonnull
          have few : st.buckets ≤ mem.init.capacity := by
            rcases read.buckets with zero | same <;> rcases count with unset | stored <;> omega
          have := ScanCall.steps_le inTable
          simp only [StartCall.steps, phase]
          omega
  | noTable | noFrames =>
      simp only [StartCall.steps, phase]
      omega

/-! ## Every schedule -/

/-- The steps that call `i` has made, or more. -/
def StartState.stepsOf (i : Nat) (s : StartState) : Nat := (s.procs[i]?).elim 0 StartCall.steps

theorem StartState.Sound.step {ok : StartState → Move (Option (List Char) × Call) Nat → Prop}
    {m : Move (Option (List Char) × Call) Nat} (sound : s.Sound) (cond : ok s m)
    (stepped : startProgram.step s m = some s') : s'.Sound := by
  obtain ⟨memory, calls⟩ := startProgram_undisturbed.step sound.numbered cond stepped
    ⟨sound.memory, sound.calls⟩
  exact ⟨sound.numbered.step stepped, memory, calls⟩

theorem acts_bounded (sound : s.Sound) {moves' : List (Move (Option (List Char) × Call) Nat)}
    (run : startProgram.Exec notVain s moves' s') (i : Nat) :
    moves'.countP (Move.isActOf i) ≤ 12 * s'.shared.init.capacity + 21 := by
  have sound' : s'.Sound :=
    Exec.invariant StartState.Sound (fun _ _ _ sound cond stepped => sound.step cond stepped) run sound
  have bounded : moves'.countP (Move.isActOf i) ≤ s'.stepsOf i := by
    refine Exec.acts_le_measure (A := StartState.Sound) (StartState.stepsOf i)
      (fun _ _ _ sound cond stepped => sound.step cond stepped) ?_ ?_ run sound
    · intro s a s' sound sees stepped
      obtain ⟨c, mem, c', at_i, acted, rfl⟩ := step_act stepped
      have further := StartCall.steps_lt (sound.calls i c at_i) (sees c at_i) acted
      simpa only [StartState.stepsOf, at_i, Option.elim_some,
        List.getElem?_set_self (List.getElem?_eq_some_iff.mp at_i).1] using further
    · intro s m s' _ _ notOwn stepped
      cases at_i : s.procs[i]? with
      | none =>
          rw [StartState.stepsOf, at_i]
          exact Nat.zero_le _
      | some c =>
          rcases step_getElem? stepped at_i with ⟨kept, _⟩ | ⟨a, _, rfl, _⟩
          · rw [StartState.stepsOf, StartState.stepsOf, at_i, kept]
          · simp only [Move.isActOf, beq_self_eq_true, Bool.true_eq_false] at notOwn
  refine Nat.le_trans bounded ?_
  cases at_i : s'.procs[i]? with
  | none =>
      rw [StartState.stepsOf, at_i]
      exact Nat.zero_le _
  | some c =>
      rw [StartState.stepsOf, at_i]
      exact (sound'.calls i c at_i).steps_le sound'.memory

/-- The step that all who spin wait for. -/
theorem spins_end (run : startProgram.Exec anyMove StartState.initial moves s) {i : Nat}
    (at_i : s.procs[i]? = some c) (spins : c.Spins s.shared) :
    ∃ (j : Nat) (d : StartCall), s.procs[j]? = some d ∧ d.Publishing ∧
      (∀ k e, s.procs[k]? = some e → e.Publishing → k = j) ∧
      ∀ answer, ∃ s', startProgram.step s (.act j answer) = some s' ∧
        ∀ e ∈ s'.procs, ¬ e.Spins s'.shared := by
  have sound := startSound_of_exec run
  obtain ⟨awaits, unset⟩ := spins
  obtain ⟨ic, other, phase, pc⟩ := StartCall.awaiting_iff.mp awaits
  have known := sound.calls i c at_i
  simp only [StartCall.Sound, phase] at known
  have lost := known.1
  simp only [InitCall.forget, InitCall.Sound, pc] at lost
  have set : s.shared.init.statics.base ≠ 0 := lost.1 ▸ lost.2
  obtain ⟨j, d, at_j, publishing⟩ := ((awaited_of_exec run).winner set).resolve_left (not_not.mpr unset)
  refine ⟨j, d, at_j, publishing, fun k e at_k own => publishing_unique sound at_k at_j own publishing,
    fun answer => ?_⟩
  obtain ⟨id, phase', pc'⟩ := publishing
  have acted : startProgram.act s.shared j d answer =
      (id.step s.shared.init answer).map fun r =>
        (⟨r.1, r.2.zeroed s.shared.pages⟩, StartCall.resume d.call r.2) := by
    simp only [startProgram, StartCall.step, phase']
  simp only [InitCall.step, pc', Option.map_some] at acted
  refine ⟨_, step_act_eq at_j acted, fun e _ spinning => ?_⟩
  have counted : id.buckets = 0 := spinning.2
  have := id.buckets_ge
  omega

/-- **Nobody waits for more than one step of another call.** A call that is not over can
take its next step. If that is a look at a bucket count which is not there yet, there is
just one call that stores it, with its next step, and then nobody spins. In a schedule
without such looks the steps of a call are bounded by the size of the table. -/
theorem startup_lock_free (run : startProgram.Exec anyMove StartState.initial moves s) :
    (∀ (i : Nat) (c : StartCall), s.procs[i]? = some c → ¬ c.Over → ∀ answer,
      c.Offered s.shared answer → ∃ s', startProgram.step s (.act i answer) = some s') ∧
    (∀ (i : Nat) (c : StartCall), s.procs[i]? = some c → c.Spins s.shared →
      ∃ (j : Nat) (d : StartCall), s.procs[j]? = some d ∧ d.Publishing ∧
        (∀ k e, s.procs[k]? = some e → e.Publishing → k = j) ∧
        ∀ answer, ∃ s', startProgram.step s (.act j answer) = some s' ∧
          ∀ e ∈ s'.procs, ¬ e.Spins s'.shared) ∧
    ∀ moves' s', startProgram.Exec notVain s moves' s' → ∀ i,
      moves'.countP (Move.isActOf i) ≤ 12 * s'.shared.init.capacity + 21 := by
  have sound := startSound_of_exec run
  refine ⟨fun i c at_i running answer offered => ?_, fun i c at_i spins => spins_end run at_i spins,
    fun moves' s' rest i => acts_bounded sound rest i⟩
  have enabled := StartCall.enabled (sound.calls i c at_i) (unreturned_of_exec run at_i) running offered
  obtain ⟨⟨mem, c'⟩, stepped⟩ := Option.isSome_iff_exists.mp enabled
  exact ⟨_, step_act_eq at_i stepped⟩

/-! The second call loses the race to the first and looks for the bucket count too early. -/

def spinMoves : List (Move (Option (List Char) × Call) Nat) :=
  [.start (some ['6', '4'], .record raceFrames 10), .start (none, .report), .act 0 0, .act 1 0,
    .act 0 0x7f0000000000, .act 1 0x7e0000000000, .act 0 0, .act 1 0, .act 1 0, .act 1 0]

def spinEnd : StartState :=
  (startProgram.run anyMove StartState.initial spinMoves).get (by decide)

theorem startup_lock_free_spinning : ∃ c, spinEnd.procs[1]? = some c ∧ c.Spins spinEnd.shared ∧
    ∃ (j : Nat) (d : StartCall), spinEnd.procs[j]? = some d ∧ d.Publishing ∧
      (∀ k e, spinEnd.procs[k]? = some e → e.Publishing → k = j) ∧
      ∀ answer, ∃ s', startProgram.step spinEnd (.act j answer) = some s' ∧
        ∀ e ∈ s'.procs, ¬ e.Spins s'.shared := by
  have run : startProgram.Exec anyMove StartState.initial spinMoves spinEnd :=
    Exec.of_run (Option.some_get (by decide)).symm
  let loser : StartCall := (spinEnd.procs[1]?).get (by decide)
  have at_loser : spinEnd.procs[1]? = some loser := (Option.some_get _).symm
  have spins : loser.Spins spinEnd.shared := by decide
  exact ⟨loser, at_loser, spins, (startup_lock_free run).2.1 1 loser at_loser spins⟩

end ModAlloc
