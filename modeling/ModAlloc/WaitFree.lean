import ModAlloc.Reconcile

/-!
# No call waits for another

Once the table is initialised, a `GlobalAlloc` call is through after a number of steps of
its own that depends on the size of the table alone, and the innermost call on a thread can
always take its next step, however the other threads are scheduled and wherever they have
stopped (`wait_free`). The measure is how far the call has come, with the progress of its
`record` process while it is on the table; the process is its own (`site_unique`), so
no other call takes a step of it.
-/

namespace ModAlloc

open Interleaving Interleaving.Program

variable {backtraces : Bool} {st : Statics} {env : Option (List Char)} {w w' : AllocWorld}
  {c c' d : AllocCall} {moves : List (Move (Nat × Request) Answer)} {s s' : AllocState}
  {ok : AllocState → Move (Nat × Request) Answer → Prop}

/-! ## The process of a call is its own -/

theorem site_unique (run : (allocProgram backtraces st).Exec ok AllocState.initial moves s)
    {i j k : Nat} (at_i : s.procs[i]? = some c) (at_j : s.procs[j]? = some d)
    (site : c.site = some k) (site' : d.site = some k) : i = j := by
  have nodup : (s.procs.filterMap AllocCall.site).Nodup := (sites_perm run).nodup_iff.mpr List.nodup_range
  have apart := List.pairwise_iff_getElem.mp (List.pairwise_filterMap.mp nodup)
  obtain ⟨hi, rfl⟩ := List.getElem?_eq_some_iff.mp at_i
  obtain ⟨hj, rfl⟩ := List.getElem?_eq_some_iff.mp at_j
  rcases Nat.lt_trichotomy i j with less | same | greater
  · exact absurd rfl (apart i j hi hj less k site k site')
  · exact same
  · exact absurd rfl (apart j i hj hi greater k site' k site)

/-- The steps of a call leave the processes of the other calls alone. -/
theorem process_kept (run : (allocProgram backtraces st).Exec ok AllocState.initial moves s)
    {i j k : Nat} (at_i : s.procs[i]? = some c) (at_j : s.procs[j]? = some d) (other : j ≠ i)
    (site : d.site = some k) (trans : AllocCall.Trans backtraces st s.shared c w' c') :
    w'.table.procs[k]? = s.shared.table.procs[k]? := by
  have inTable : k < s.shared.table.procs.length := by
    obtain ⟨r, at_k, _⟩ := linked_of_exec run j d at_j k site
    exact (List.getElem?_eq_some_iff.mp at_k).1
  have progress := ((numbered_of_exec run).wellFormed i c at_i).progress
  have elsewhere : ∀ {k' : Nat} {table : TableState}, c.pc = .inTable k' →
      (tableProgram st).step s.shared.table (.act k' ()) = some table →
      table.procs[k]? = s.shared.table.procs[k]? := by
    intro k' table pc stepped
    simp only [AllocCall.Progress, pc] at progress
    obtain ⟨p, m, p', _, _, rfl⟩ := step_act stepped
    refine List.getElem?_set_ne ?_
    rintro rfl
    exact other (site_unique run at_j at_i site progress.2.2.1)
  cases trans with
  | captured pc _ started =>
      obtain ⟨m, p, _, rfl⟩ := step_start started
      exact List.getElem?_append_left inTable
  | records pc stepped _ | recorded pc stepped _ => exact elsewhere pc stepped
  | _ => rfl

/-- A call that is on the table has a process that has not returned. -/
def AllocCall.Recording (w : AllocWorld) (c : AllocCall) : Prop :=
  ∀ k, c.pc = .inTable k → ∃ r : RecordCall, w.table.procs[k]? = some (.record r) ∧
    r.pc.isReturned = false

theorem AllocCall.withUpdates_ne_inTable (request : Request) (old : U64) (us : List Update) (k : Nat) :
    withUpdates request old us ≠ .inTable k := by
  cases us with
  | cons u us => exact CallPc.noConfusion
  | nil =>
      rw [withUpdates]
      split <;> exact CallPc.noConfusion

theorem AllocCall.afterRegister_ne_inTable (backtraces : Bool) (k : Nat) :
    afterRegister backtraces ≠ .inTable k := by
  cases backtraces <;> exact CallPc.noConfusion

theorem RecordCall.init_running {frames : Frames} (nonempty : 1 ≤ frames.count.val) (size : U64) :
    (RecordCall.init frames size).pc = .loadBase := by
  rw [init]
  exact if_neg (by omega)

theorem AllocCall.Trans.recording (trans : AllocCall.Trans backtraces st w c w' c')
    (recording : c.Recording w) : c'.Recording w' := by
  intro k pc'
  cases trans with
  | enters _ _ | update _ => exact (withUpdates_ne_inTable _ _ _ _ pc').elim
  | seeHandle _ _ | register _ => exact (afterRegister_ne_inTable _ _ pc').elim
  | @captured frames table pc nonempty started =>
      cases pc'
      obtain ⟨m, p, start, rfl⟩ := step_start started
      obtain ⟨_, rfl⟩ := tableProgram_start start
      refine ⟨_, List.getElem?_concat_length, ?_⟩
      rw [RecordCall.init_running nonempty]
      rfl
  | @records k table pc stepped running =>
      cases pc'
      obtain ⟨r, at_k, _⟩ := recording k pc
      obtain ⟨r', at_k', _⟩ := record_kept stepped at_k
      refine ⟨r', at_k', ?_⟩
      rw [AllocCall.recorded, at_k'] at running
      exact running
  | systemFrees _ _ | systemFails _ _ | systemGrants _ _ _ | denied _ _ | seeNull _ _ | noFrames _
  | recorded _ _ _ | dropGuard _ => cases pc'

theorem recording_of_exec (run : (allocProgram backtraces st).Exec ok AllocState.initial moves s) :
    Everywhere AllocCall.Recording s := by
  let reached : AllocState → Prop := fun s =>
    ∃ moves, (allocProgram backtraces st).Exec ok AllocState.initial moves s
  have undisturbed : Undisturbed (allocProgram backtraces st) ok reached (fun _ => True)
      AllocCall.Recording :=
    { start_self := by
        intro s arg v c _ _ _ _ started
        obtain ⟨rfl, rfl⟩ := allocProgram_start started
        exact ⟨trivial, fun k pc => by cases pc⟩
      start_other := by
        intro s arg v c i d _ _ _ _ started _ recording
        obtain ⟨rfl, rfl⟩ := allocProgram_start started
        exact recording
      act_self := by
        intro s i c a v c' _ _ _ _ recording acted
        exact ⟨trivial, (allocProgram_act acted).2.recording recording⟩
      act_other := by
        intro s i c a v c' j d ⟨_, run⟩ _ _ at_i _ acted other at_j recording k pc
        obtain ⟨r, at_k, running⟩ := recording k pc
        have progress := ((numbered_of_exec run).wellFormed j d at_j).progress
        simp only [AllocCall.Progress, pc] at progress
        exact ⟨r, (process_kept run at_i at_j other progress.2.2.1 (allocProgram_act acted).2).trans at_k,
          running⟩ }
  exact (Exec.interference (A := reached) (G := fun _ => True) (I := AllocCall.Recording)
    (fun s m s' ⟨moves, run⟩ cond stepped => ⟨moves ++ [m], run.snoc cond stepped⟩)
    undisturbed run ⟨[], .nil _⟩ ⟨trivial, fun i c at_i => by cases at_i⟩).2

/-! ## How far a call has come -/

/-- The steps a call has made, or more; `b` is the number of buckets. -/
def AllocCall.steps (b : Nat) (table : TableState) (c : AllocCall) : Nat :=
  match c.pc with
  | .system => 0
  | .enter => 1
  | .update _ _ _ => 2 + c.updates.length
  | .loadHandle => 8
  | .casHandle => 9
  | .capture => 10
  | .inTable k => 11 + (table.procs[k]?).elim 0 Proc.recordProgress
  | .dropGuard => 2 * b + 27
  | .returned => 2 * b + 28

theorem Request.length_updates_le (request : Request) : request.updates.length ≤ 6 := by
  cases request with
  | alloc size | allocZeroed size => exact le_rfl
  | dealloc block => exact (by decide : 2 ≤ 6)
  | realloc block newSize =>
      rw [updates, recordRealloc]
      split
      · exact (by decide : 4 ≤ 6)
      · split
        · exact (by decide : 2 ≤ 6)
        · exact (by decide : 1 ≤ 6)

/-- With updates left or none, a call is past those it has made. -/
theorem AllocCall.steps_withUpdates (b : Nat) (table : TableState) {done us : List Update} {old : U64}
    (few : (done ++ us).length ≤ 6) :
    2 + done.length ≤
      AllocCall.steps b table { c with updates := done, pc := withUpdates c.request old us } := by
  rw [List.length_append] at few
  cases us with
  | cons u us => exact le_rfl
  | nil =>
      simp only [withUpdates, steps]
      cases c.request.isDealloc with
      | true =>
          simp only [if_true]
          omega
      | false =>
          simp only [Bool.false_eq_true, if_false]
          omega

theorem AllocCall.steps_afterRegister (b : Nat) (table : TableState) :
    9 < AllocCall.steps b table { c with pc := afterRegister backtraces } := by
  cases backtraces with
  | true => exact (by decide : 9 < 10)
  | false => exact (by omega : 9 < 2 * b + 27)

/-- No call on the table has visited more than `b` slots. -/
def TableState.Within (b : Nat) (table : TableState) : Prop :=
  ∀ (k : Nat) (r : RecordCall), table.procs[k]? = some (.record r) → r.visited ≤ b

theorem TableState.Within.progress_le {b : Nat} {table : TableState} (within : table.Within b) (k : Nat) :
    (table.procs[k]?).elim 0 Proc.recordProgress ≤ 2 * b + 15 := by
  cases at_k : table.procs[k]? with
  | none => exact Nat.zero_le _
  | some p =>
      cases p with
      | scan q => exact Nat.zero_le _
      | record r =>
          have := within k r at_k
          have := r.progress_le
          simp only [Option.elim_some, Proc.recordProgress]
          omega

/-- **A step of a call brings it further.** -/
theorem AllocCall.Trans.steps {b : Nat} (trans : AllocCall.Trans backtraces st w c w' c')
    (progress : c.Progress) (recording : c.Recording w) (within : w.table.Within b) :
    c.steps b w.table < c'.steps b w'.table := by
  have few := c.request.length_updates_le
  cases trans with
  | systemFrees pc _ | systemGrants pc _ _ =>
      simp only [AllocCall.steps, pc]
      exact Nat.zero_lt_one
  | systemFails pc _ | denied pc _ | dropGuard pc =>
      simp only [AllocCall.steps, pc]
      omega
  | enters pc _ =>
      simp only [Progress, pc] at progress
      have further := @AllocCall.steps_withUpdates c b w.table [] c.request.updates 0 few
      rw [show c = { c with updates := [] } by rw [← progress.2.1]]
      refine Nat.lt_of_lt_of_le ?_ further
      simp only [AllocCall.steps, pc, List.length_nil]
      exact (by decide : 1 < 2)
  | @update u rest old pc =>
      simp only [Progress, pc] at progress
      have whole : ((c.updates ++ [u]) ++ rest).length ≤ 6 := by
        rw [List.append_assoc, List.singleton_append, progress.2.1]
        exact few
      refine Nat.lt_of_lt_of_le ?_ (AllocCall.steps_withUpdates b w.table whole)
      simp only [AllocCall.steps, pc, List.length_append, List.length_singleton]
      omega
  | seeHandle pc _ | register pc =>
      refine Nat.lt_of_le_of_lt ?_ (AllocCall.steps_afterRegister b w.table)
      simp only [AllocCall.steps, pc]
      omega
  | seeNull pc _ =>
      simp only [AllocCall.steps, pc]
      omega
  | noFrames pc =>
      simp only [AllocCall.steps, pc]
      omega
  | captured pc _ _ =>
      simp only [AllocCall.steps, pc]
      omega
  | @records k table pc stepped _ =>
      obtain ⟨r, at_k, _⟩ := recording k pc
      obtain ⟨p, mem, p', before, acted, rfl⟩ := step_act stepped
      obtain rfl := Option.some.inj (before.symm.trans at_k)
      rcases tableProgram_act acted with ⟨q, q', same, rfl, trans⟩ | ⟨_, _, same, _⟩
      · cases same
        have further := trans.progress
        have after := List.getElem?_set_self (a := Proc.record q') (List.getElem?_eq_some_iff.mp at_k).1
        simp only [AllocCall.steps, pc, at_k, after, Option.elim_some, Proc.recordProgress]
        omega
      · cases same
  | @recorded k table pc stepped _ =>
      have bound := within.progress_le k
      simp only [AllocCall.steps, pc]
      omega

theorem AllocCall.steps_le {b : Nat} {table : TableState} (progress : c.Progress)
    (within : table.Within b) : c.steps b table ≤ 2 * b + 28 := by
  have few := c.request.length_updates_le
  unfold AllocCall.steps
  split
  case h_3 u rest old pc =>
      simp only [Progress, pc] at progress
      rw [← progress.2.1, List.length_append] at few
      omega
  case h_7 k _ =>
      have := within.progress_le k
      omega
  all_goals omega

/-- The steps made by call `i`. -/
def AllocState.stepsOf (b i : Nat) (s : AllocState) : Nat :=
  (s.procs[i]?).elim 0 (AllocCall.steps b s.shared.table)

theorem within_of_exec (init : st.Initialised env)
    (run : (allocProgram backtraces st).Exec ok AllocState.initial moves s) :
    s.shared.table.Within st.buckets := by
  intro k r at_k
  obtain ⟨tableMoves, tableRun⟩ := table_of_exec run
  exact ((sound_of_exec init tableRun).2 r
    (mem_calls_iff.mpr (mem_procs_iff.mpr ⟨k, at_k⟩))).visited_le

/-- **A call makes boundedly many steps.** -/
theorem steps_bounded (init : st.Initialised env)
    (run : (allocProgram backtraces st).Exec ok AllocState.initial moves s) {i : Nat}
    (at_i : s.procs[i]? = some c) : moves.countP (Move.isActOf i) ≤ 2 * st.buckets + 28 := by
  let reached : AllocState → Prop := fun s =>
    ∃ moves, (allocProgram backtraces st).Exec ok AllocState.initial moves s
  have bound : moves.countP (Move.isActOf i) ≤ s.stepsOf st.buckets i := by
    refine Exec.acts_le_measure (A := reached) (AllocState.stepsOf st.buckets i)
      (fun s m s' ⟨moves, run⟩ cond stepped => ⟨moves ++ [m], run.snoc cond stepped⟩) ?_ ?_ run
      ⟨[], .nil _⟩
    · intro s a s' ⟨_, run⟩ _ stepped
      obtain ⟨c, w, c', at_i, acted, rfl⟩ := step_act stepped
      have further := (allocProgram_act acted).2.steps
        ((numbered_of_exec run).wellFormed i c at_i).progress (recording_of_exec run i c at_i)
        (within_of_exec init run)
      simpa only [AllocState.stepsOf, at_i, Option.elim_some,
        List.getElem?_set_self (List.getElem?_eq_some_iff.mp at_i).1] using further
    · intro s m s' ⟨_, run⟩ _ notOwn stepped
      cases at_i : s.procs[i]? with
      | none =>
          rw [AllocState.stepsOf, at_i]
          exact Nat.zero_le _
      | some d =>
          rcases step_getElem? stepped at_i with ⟨kept, _⟩ | ⟨a, _, rfl, _⟩
          · -- only the process of the call on the table counts, and that is its own
            have sameSteps : d.steps st.buckets s.shared.table = d.steps st.buckets s'.shared.table := by
              by_cases onTable : ∃ k, d.pc = .inTable k
              · obtain ⟨k, pc⟩ := onTable
                have progress := ((numbered_of_exec run).wellFormed i d at_i).progress
                simp only [AllocCall.Progress, pc] at progress
                have same : s'.shared.table.procs[k]? = s.shared.table.procs[k]? := by
                  cases m with
                  | start arg =>
                      obtain ⟨w, c, started, rfl⟩ := step_start stepped
                      obtain ⟨rfl, _⟩ := allocProgram_start started
                      rfl
                  | act j a =>
                      obtain ⟨c, w, c', at_j, acted, rfl⟩ := step_act stepped
                      have apart : i ≠ j := by
                        simpa only [Move.isActOf, beq_eq_false_iff_ne] using notOwn
                      exact process_kept run at_j at_i apart progress.2.2.1 (allocProgram_act acted).2
                simp only [AllocCall.steps, pc, same]
              · unfold AllocCall.steps
                split
                case h_7 k pc => exact absurd ⟨k, pc⟩ onTable
                all_goals rfl
            rw [AllocState.stepsOf, AllocState.stepsOf, at_i, kept]
            exact sameSteps.le
          · simp only [Move.isActOf, beq_self_eq_true, Bool.true_eq_false] at notOwn
  refine bound.trans ?_
  rw [AllocState.stepsOf, at_i]
  exact AllocCall.steps_le ((numbered_of_exec run).wellFormed i c at_i).progress
    (within_of_exec init run)

/-! ## The innermost call can go on -/

/-- The calls on a stack are in progress, on that thread. -/
def AllocState.Stacked (s : AllocState) : Prop :=
  ∀ (t i : Nat), i ∈ s.shared.stack t →
    ∃ c : AllocCall, s.procs[i]? = some c ∧ c.thread = t ∧ c.pc ≠ .returned

/-- A call that returns is taken from its stack, on which it was the top. -/
theorem AllocCall.Trans.pops (trans : AllocCall.Trans backtraces st w c w' c') (progress : c.Progress)
    (returned : c'.pc = .returned) :
    w'.stack = Function.update w.stack c.thread (w.stack c.thread).tail := by
  cases trans.guard progress with
  | stays _ _ _ running => exact absurd returned running
  | takes _ _ _ held => exact absurd returned (AllocCall.ne_returned_of_holdsGuard held)
  | leaves popped _ _ _ _ | drops popped _ _ _ _ => exact popped

theorem stacked_of_exec (run : (allocProgram backtraces st).Exec Nesting AllocState.initial moves s) :
    s.Stacked := by
  refine Exec.snocInduction (motive := fun _ s => AllocState.Stacked s)
    (fun _ _ inStack => (List.not_mem_nil inStack).elim) ?_ run
  intro ms s m s' sofar cond stepped stacked t j inStack
  cases m with
  | start arg =>
      obtain ⟨w, c, started, rfl⟩ := step_start stepped
      obtain ⟨rfl, rfl⟩ := allocProgram_start started
      have older : j ∈ s.shared.stack t → ∃ c : AllocCall,
          (s.procs ++ [AllocCall.init s.shared s.procs.length arg.1 arg.2])[j]? = some c ∧
            c.thread = t ∧ c.pc ≠ .returned := by
        intro before
        obtain ⟨c, at_j, thread, running⟩ := stacked t j before
        exact ⟨c, by rw [List.getElem?_append_left (List.getElem?_eq_some_iff.mp at_j).1, at_j], thread,
          running⟩
      by_cases own : t = arg.1
      · subst own
        rw [AllocWorld.call_stack_self] at inStack
        rcases List.mem_cons.mp inStack with rfl | before
        · exact ⟨_, List.getElem?_concat_length, rfl, CallPc.noConfusion⟩
        · exact older before
      · rw [AllocWorld.call_stack_of_ne _ _ own] at inStack
        exact older inStack
  | act i a =>
      obtain ⟨c, w, c', at_i, acted, rfl⟩ := step_act stepped
      obtain ⟨top, trans⟩ := allocProgram_act acted
      have wellFormed := (numbered_of_exec sofar).wellFormed i c at_i
      have before : j ∈ s.shared.stack t := by
        rcases trans.stack t with same | ⟨_, popped, _⟩
        · exact same ▸ inStack
        · exact List.mem_of_mem_tail (popped ▸ inStack)
      obtain ⟨d, at_j, thread, running⟩ := stacked t j before
      by_cases own : j = i
      · subst own
        obtain rfl := Option.some.inj (at_j.symm.trans at_i)
        refine ⟨c', List.getElem?_set_self (List.getElem?_eq_some_iff.mp at_i).1,
          trans.kept.2.1.trans thread, fun returned => ?_⟩
        -- it is not on its stack twice
        have nodup := (guarded_of_exec sofar).1.nodup t
        rw [trans.pops wellFormed.progress returned, thread, Function.update_self] at inStack
        obtain ⟨rest, stack⟩ := List.head?_eq_some_iff.mp top
        rw [thread, wellFormed.index] at stack
        rw [stack, List.tail_cons] at inStack
        rw [stack] at nodup
        exact (List.nodup_cons.mp nodup).1 inStack
      · exact ⟨d, (List.getElem?_set_ne (Ne.symm own)).trans at_j, thread, running⟩

/-- The innermost call can take its next step, whatever the environment answers. -/
theorem step_of_top (init : st.Initialised env) (recording : c.Recording w)
    (top : (w.stack c.thread).head? = some c.index) (running : c.pc ≠ .returned) (a : Answer) :
    ∃ w' c', c.step backtraces st w a = some (w', c') := by
  unfold AllocCall.step
  rw [if_neg (not_not.mpr top)]
  split
  case h_1 pc =>
      split
      · exact ⟨_, _, rfl⟩
      · split <;> exact ⟨_, _, rfl⟩
  case h_2 pc => split <;> exact ⟨_, _, rfl⟩
  case h_6 pc => split <;> exact ⟨_, _, rfl⟩
  case h_7 k pc =>
      obtain ⟨r, at_k, going⟩ := recording k pc
      have enabled : (r.step st w.table.shared).isSome :=
        RecordCall.step_isSome init fun outcome returned => by
          rw [returned] at going
          cases going
      obtain ⟨⟨mem, r'⟩, stepped⟩ := Option.isSome_iff_exists.mp enabled
      have acted : (tableProgram st).act w.table.shared k (.record r) () = some (mem, .record r') := by
        simp only [tableProgram, Proc.step, stepped, Option.map_some]
      rw [step_act_eq at_k acted]
      exact ⟨_, _, rfl⟩
  case h_9 pc => exact absurd pc running
  all_goals exact ⟨_, _, rfl⟩

/-- **No call waits for another thread.** A call makes at most `2 * buckets + 28` steps,
and until it has returned the innermost call of its thread, itself or one nested inside
it, can take its next step, whatever state the other threads are in. -/
theorem wait_free (init : st.Initialised env)
    (run : (allocProgram backtraces st).Exec Nesting AllocState.initial moves s) {i : Nat}
    (at_i : s.procs[i]? = some c) :
    moves.countP (Move.isActOf i) ≤ 2 * st.buckets + 28 ∧
      (c.pc ≠ .returned → ∃ (j : Nat) (d : AllocCall), s.procs[j]? = some d ∧ d.thread = c.thread ∧
        (j = i ∨ d.nested = true) ∧
        ∀ a, ∃ s', (allocProgram backtraces st).step s (.act j a) = some s') := by
  refine ⟨steps_bounded init run at_i, fun running => ?_⟩
  have guarded := (guarded_of_exec run).2
  have numbered := (numbered_of_exec run).wellFormed
  have onStack := (guarded i c at_i).placed.mem running
  rw [(numbered i c at_i).index] at onStack
  obtain ⟨j, rest, stack⟩ : ∃ j rest, s.shared.stack c.thread = j :: rest :=
    List.exists_cons_of_ne_nil (List.ne_nil_of_mem onStack)
  obtain ⟨d, at_j, thread, going⟩ := stacked_of_exec run c.thread j (stack ▸ List.mem_cons_self)
  have index := (numbered j d at_j).index
  refine ⟨j, d, at_j, thread, ?_, fun a => ?_⟩
  · cases nested : d.nested with
    | true => exact .inr rfl
    | false =>
        -- an outermost call that is innermost, too, is alone
        have alone : s.shared.stack c.thread = [j] := by
          rw [← thread] at stack ⊢
          cases (guarded j d at_j).placed with
          | gone returned _ => exact absurd returned going
          | inner inside _ _ _ _ _ => exact absurd (nested.symm.trans inside) (by decide)
          | outer _ _ _ last =>
              rw [index] at last
              exact AllocCall.alone_of_top ((guarded_of_exec run).1.nodup _) (by rw [stack]; rfl) last
          | waiting _ _ _ _ only => rw [only, index]
        rw [alone] at onStack
        exact .inl (List.mem_singleton.mp onStack).symm
  · have top : (s.shared.stack d.thread).head? = some d.index := by
      rw [thread, stack, index]
      rfl
    obtain ⟨w', d', stepped⟩ := step_of_top init (recording_of_exec run j d at_j) top going a
    exact ⟨_, step_act_eq at_j stepped⟩

theorem wait_free_nested :
    nestedMoves.countP (Move.isActOf 0) ≤ 2 * raceStatics.buckets + 28 :=
  (wait_free (i := 0) raceStatics_initialised nestedRun (Option.some_get (by decide)).symm).1

end ModAlloc
