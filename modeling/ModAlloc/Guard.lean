import ModAlloc.AllocatorInvariant

/-!
# The reentrancy guard

The calls in progress on a thread form a stack whose outermost call alone can
hold the `ReentryGuard`, and the flag `IN_ALLOC` of the thread says whether it
does (`AllocCall.Placed`). This needs that calls are made where calls can be made
(`Nesting`): on a thread with no call in progress, or inside the tracking path.

A thread has its flag throughout: the runs here end before its storage is
destroyed.
-/

namespace ModAlloc

open Interleaving Interleaving.Program

variable {backtraces : Bool} {st : Statics} {w w' : AllocWorld} {c c' d : AllocCall}

/-- Where calls are made: on a thread without a call in progress, or inside the
tracking path of a call, between `ReentryGuard::enter` and the drop of the guard. -/
def Nesting (s : AllocState) : Move (Nat × Request) Answer → Prop
  | .start arg => s.shared.stack arg.1 = [] ∨ ∃ c ∈ s.procs, c.thread = arg.1 ∧ c.holdsGuard = true
  | .act _ _ => True

instance (s : AllocState) : ∀ m, Decidable (Nesting s m)
  | .start arg => inferInstanceAs (Decidable
      (s.shared.stack arg.1 = [] ∨ ∃ c ∈ s.procs, c.thread = arg.1 ∧ c.holdsGuard = true))
  | .act _ _ => .isTrue trivial

/-- What a step means for the guard and the stack. -/
inductive AllocCall.GuardStep (w : AllocWorld) (c : AllocCall) : AllocWorld → AllocCall → Prop
  | stays {w' : AllocWorld} {c' : AllocCall} : w'.stack = w.stack → w'.inAlloc = w.inAlloc →
    c'.holdsGuard = c.holdsGuard → c'.pc ≠ .returned → GuardStep w c w' c'
  | takes {w' : AllocWorld} {c' : AllocCall} : w'.stack = w.stack →
    w'.inAlloc = Function.update w.inAlloc c.thread (some true) →
    w.inAlloc c.thread = some false → c'.holdsGuard = true → GuardStep w c w' c'
  | leaves {w' : AllocWorld} {c' : AllocCall} :
    w'.stack = Function.update w.stack c.thread (w.stack c.thread).tail →
    w'.inAlloc = w.inAlloc → c.holdsGuard = false → c'.pc = .returned →
    (c.granted = true → w.inAlloc c.thread ≠ some false) → GuardStep w c w' c'
  | drops {w' : AllocWorld} {c' : AllocCall} :
    w'.stack = Function.update w.stack c.thread (w.stack c.thread).tail →
    w'.inAlloc = Function.update w.inAlloc c.thread ((w.inAlloc c.thread).map fun _ => false) →
    c.holdsGuard = true → c'.updates = c'.request.updates → c'.pc = .returned →
    GuardStep w c w' c'

namespace AllocCall

theorem holdsGuard_withUpdates (c : AllocCall) (done us : List Update) (old : U64) :
    holdsGuard { c with updates := done, pc := withUpdates c.request old us } = true := by
  cases us with
  | cons u us => rfl
  | nil => simp only [holdsGuard, withUpdates]; cases c.request.isDealloc <;> rfl

theorem holdsGuard_afterRegister (c : AllocCall) (backtraces : Bool) :
    holdsGuard { c with pc := afterRegister backtraces } = true := by
  cases backtraces <;> rfl

theorem ne_returned_of_holdsGuard (held : c.holdsGuard = true) : c.pc ≠ .returned := by
  intro pc
  simp only [holdsGuard, pc, Bool.false_eq_true] at held

/-- A call that has returned makes no more steps. -/
theorem Trans.running (trans : AllocCall.Trans backtraces st w c w' c') : c.pc ≠ .returned := by
  intro returned
  cases trans <;> simp_all only [reduceCtorEq]

theorem Trans.guard (trans : AllocCall.Trans backtraces st w c w' c') (progress : c.Progress) :
    GuardStep w c w' c' := by
  cases trans with
  | systemFrees pc _ | systemGrants pc _ _ =>
      refine .stays rfl rfl ?_ CallPc.noConfusion
      simp only [holdsGuard, pc]
  | systemFails pc _ =>
      simp only [Progress, pc] at progress
      refine .leaves rfl rfl ?_ rfl fun granted => absurd (progress.1.symm.trans granted) (by decide)
      simp only [holdsGuard, pc]
  | enters pc free => exact .takes rfl rfl free (holdsGuard_withUpdates c c.updates _ _)
  | denied pc taken =>
      refine .leaves rfl rfl ?_ rfl fun _ => taken
      simp only [holdsGuard, pc]
  | update pc =>
      refine .stays rfl rfl ?_ (withUpdates_ne_returned _ _ _)
      rw [holdsGuard_withUpdates, holdsGuard, pc]
  | seeHandle pc _ | register pc =>
      refine .stays rfl rfl ?_ (afterRegister_ne_returned _)
      rw [holdsGuard_afterRegister, holdsGuard, pc]
  | dropGuard pc =>
      simp only [Progress, pc] at progress
      refine .drops rfl rfl ?_ progress.2.1 rfl
      simp only [holdsGuard, pc]
  | seeNull pc _ | noFrames pc | captured pc _ _ | records pc _ _ | recorded pc _ _ =>
      refine .stays rfl rfl ?_ CallPc.noConfusion
      simp only [holdsGuard, pc]

/-- Where a call stands on its thread, and what the flag of the thread says. -/
inductive Placed (w : AllocWorld) (c : AllocCall) : Prop
  /-- it has returned -/
  | gone : c.pc = .returned → c.index ∉ w.stack c.thread → Placed w c
  /-- it was made inside a call that holds the guard -/
  | inner : c.nested = true → c.holdsGuard = false → c.pc ≠ .returned →
    w.inAlloc c.thread = some true → c.index ∈ w.stack c.thread →
    (w.stack c.thread).getLast? ≠ some c.index → Placed w c
  /-- it is the outermost call and holds the guard -/
  | outer : c.nested = false → c.holdsGuard = true → w.inAlloc c.thread = some true →
    (w.stack c.thread).getLast? = some c.index → Placed w c
  /-- it is the only call and has not come to the guard -/
  | waiting : c.nested = false → c.holdsGuard = false → c.pc ≠ .returned →
    w.inAlloc c.thread = some false → w.stack c.thread = [c.index] → Placed w c

/-- The placement of a call depends on its thread alone. -/
theorem Placed.congr (placed : c.Placed w) (stack : w'.stack c.thread = w.stack c.thread)
    (flag : w'.inAlloc c.thread = w.inAlloc c.thread) : c.Placed w' := by
  cases placed with
  | gone returned absent => exact .gone returned (stack ▸ absent)
  | inner nested idle running set present notLast =>
      exact .inner nested idle running (flag.trans set) (stack ▸ present) (stack ▸ notLast)
  | outer outermost held set last => exact .outer outermost held (flag.trans set) (stack ▸ last)
  | waiting outermost idle running clear only =>
      exact .waiting outermost idle running (flag.trans clear) (stack.trans only)

/-- A call in progress is on the stack of its thread. -/
theorem Placed.mem (placed : c.Placed w) (running : c.pc ≠ .returned) :
    c.index ∈ w.stack c.thread := by
  cases placed with
  | gone returned _ => exact absurd returned running
  | inner _ _ _ _ present _ => exact present
  | outer _ _ _ last => exact List.mem_of_getLast? last
  | waiting _ _ _ _ only => exact only ▸ List.mem_singleton_self _

/-- A call that holds the guard has set the flag. -/
theorem Placed.set (placed : c.Placed w) (held : c.holdsGuard = true) :
    c.nested = false ∧ w.inAlloc c.thread = some true ∧
      (w.stack c.thread).getLast? = some c.index := by
  cases placed with
  | gone returned _ => exact absurd returned (ne_returned_of_holdsGuard held)
  | inner _ idle _ _ _ _ => exact absurd (idle.symm.trans held) (by decide)
  | outer outermost _ set last => exact ⟨outermost, set, last⟩
  | waiting _ idle _ _ _ => exact absurd (idle.symm.trans held) (by decide)

/-- What is both on top and at the bottom of a stack is alone on it. -/
theorem alone_of_top {l : List Nat} {i : Nat} (nodup : l.Nodup) (top : l.head? = some i)
    (bottom : l.getLast? = some i) : l = [i] := by
  obtain ⟨rest, rfl⟩ := List.head?_eq_some_iff.mp top
  cases rest with
  | nil => rfl
  | cons r rest =>
      rw [List.getLast?_cons_cons] at bottom
      exact absurd (List.mem_of_getLast? bottom) (List.nodup_cons.mp nodup).1

/-- The top of the stack leaves: the calls below stay where they are. -/
theorem Placed.below (placed : c.Placed w) {i : Nat} {rest : List Nat}
    (stack : w.stack c.thread = i :: rest) (other : i ≠ c.index)
    (stack' : w'.stack c.thread = rest) (flag : w'.inAlloc c.thread = w.inAlloc c.thread) :
    c.Placed w' := by
  have last : ∀ {k}, c.index ∈ rest →
      (rest.getLast? = some k ↔ (w.stack c.thread).getLast? = some k) := by
    intro k present
    rw [stack, List.getLast?_cons]
    cases rest with
    | nil => cases present
    | cons r rest => rw [List.getLast?_cons, Option.getD_some]
  cases placed with
  | gone returned absent =>
      refine .gone returned fun present => absent ?_
      rw [stack'] at present
      exact stack ▸ List.mem_cons_of_mem _ present
  | inner nested idle running set present notLast =>
      have present' : c.index ∈ rest :=
        (List.mem_cons.mp (stack ▸ present)).resolve_left (Ne.symm other)
      refine .inner nested idle running (flag.trans set) (stack' ▸ present') ?_
      rw [stack', ne_eq, last present']
      exact notLast
  | outer outermost held set last' =>
      have present' : c.index ∈ rest :=
        (List.mem_cons.mp (stack ▸ List.mem_of_getLast? last')).resolve_left (Ne.symm other)
      refine .outer outermost held (flag.trans set) ?_
      rw [stack', last present']
      exact last'
  | waiting _ _ _ _ only =>
      rw [stack] at only
      exact absurd (List.cons.inj only).1 other

/-- A step of the call itself. -/
theorem Placed.step (placed : c.Placed w) (trans : AllocCall.Trans backtraces st w c w' c')
    (progress : c.Progress) (nodup : (w.stack c.thread).Nodup)
    (top : (w.stack c.thread).head? = some c.index) : c'.Placed w' := by
  have running := trans.running
  obtain ⟨index, thread, _, nested⟩ := trans.kept
  obtain ⟨rest, stack⟩ : ∃ rest, w.stack c.thread = c.index :: rest := List.head?_eq_some_iff.mp top
  have absent : w'.stack = Function.update w.stack c.thread (w.stack c.thread).tail →
      c'.index ∉ w'.stack c'.thread := by
    intro popped
    rw [popped, thread, Function.update_self, index, stack]
    rw [stack] at nodup
    exact (List.nodup_cons.mp nodup).1
  cases trans.guard progress with
  | stays sameStack sameFlag sameGuard running' =>
      cases placed with
      | gone returned _ => exact absurd returned running
      | inner isNested idle _ set present notLast =>
          refine .inner (nested.trans isNested) (sameGuard.trans idle) running' ?_ ?_ ?_
          all_goals rw [thread]
          · rw [sameFlag, set]
          · rwa [sameStack, index]
          · rwa [sameStack, index]
      | outer outermost held set last =>
          refine .outer (nested.trans outermost) (sameGuard.trans held) ?_ ?_
          all_goals rw [thread]
          · rw [sameFlag, set]
          · rwa [sameStack, index]
      | waiting outermost idle _ clear only =>
          refine .waiting (nested.trans outermost) (sameGuard.trans idle) running' ?_ ?_
          all_goals rw [thread]
          · rw [sameFlag, clear]
          · rwa [sameStack, index]
  | takes sameStack setFlag clear held' =>
      cases placed with
      | gone returned _ => exact absurd returned running
      | inner _ _ _ set _ _ | outer _ _ set _ => exact absurd (set.symm.trans clear) (by decide)
      | waiting outermost _ _ _ only =>
          refine .outer (nested.trans outermost) held' ?_ ?_
          all_goals rw [thread]
          · rw [setFlag, Function.update_self]
          · rw [sameStack, only, index]
            rfl
  | leaves popped _ _ returned' _ => exact .gone returned' (absent popped)
  | drops popped _ _ _ returned' => exact .gone returned' (absent popped)

/-- A thread whose last call returns has its flag cleared. -/
theorem Placed.clear (placed : c.Placed w) (trans : AllocCall.Trans backtraces st w c w' c')
    (progress : c.Progress) (top : (w.stack c.thread).head? = some c.index)
    (clear : ∀ t, w.stack t = [] → w.inAlloc t = some false) :
    ∀ t, w'.stack t = [] → w'.inAlloc t = some false := by
  intro t empty
  by_cases own : t = c.thread
  · subst own
    cases trans.guard progress with
    | stays sameStack _ _ _ | takes sameStack _ _ _ =>
        rw [sameStack] at empty
        rw [empty] at top
        cases top
    | leaves popped sameFlag noGuard _ _ =>
        rw [popped, Function.update_self] at empty
        obtain ⟨rest, stack⟩ := List.head?_eq_some_iff.mp top
        rw [stack, List.tail_cons] at empty
        subst empty
        rw [sameFlag]
        cases placed with
        | gone returned _ => exact absurd returned trans.running
        | inner _ _ _ _ _ notLast => exact absurd (by rw [stack]; rfl) notLast
        | outer _ held _ _ => exact absurd (noGuard.symm.trans held) (by decide)
        | waiting _ _ _ clear _ => exact clear
    | drops _ cleared held _ _ =>
        rw [cleared, Function.update_self, (placed.set held).2.1, Option.map_some]
  · cases trans.guard progress with
    | stays sameStack sameFlag _ _ =>
        rw [sameFlag]
        exact clear t (sameStack ▸ empty)
    | takes sameStack set _ _ =>
        rw [set, Function.update_of_ne own]
        exact clear t (sameStack ▸ empty)
    | leaves popped sameFlag _ _ _ =>
        rw [popped, Function.update_of_ne own] at empty
        rw [sameFlag]
        exact clear t empty
    | drops popped cleared _ _ _ =>
        rw [popped, Function.update_of_ne own] at empty
        rw [cleared, Function.update_of_ne own]
        exact clear t empty

/-- An outermost call that returns with what it was asked for has made its updates. -/
theorem Placed.recorded (placed : c.Placed w) (trans : AllocCall.Trans backtraces st w c w' c')
    (progress : c.Progress) (outermost : c.nested = false) (granted : c.granted = true)
    (returned : c'.pc = .returned) : c'.updates = c'.request.updates := by
  cases trans.guard progress with
  | stays _ _ _ running => exact absurd returned running
  | takes _ _ _ held => exact absurd returned (ne_returned_of_holdsGuard held)
  | leaves _ _ noGuard _ taken =>
      cases placed with
      | gone returned _ => exact absurd returned trans.running
      | inner nested _ _ _ _ _ => exact absurd (nested.symm.trans outermost) (by decide)
      | outer _ held _ _ => exact absurd (noGuard.symm.trans held) (by decide)
      | waiting _ _ _ clear _ => exact absurd clear (taken granted)
  | drops _ _ _ full _ => exact full

/-- A step of another call. -/
theorem Placed.other (placed : d.Placed w) (own : c.Placed w)
    (trans : AllocCall.Trans backtraces st w c w' c') (progress : c.Progress)
    (nodup : (w.stack c.thread).Nodup) (top : (w.stack c.thread).head? = some c.index)
    (other : c.index ≠ d.index) : d.Placed w' := by
  obtain ⟨rest, stack⟩ : ∃ rest, w.stack c.thread = c.index :: rest := List.head?_eq_some_iff.mp top
  by_cases same : d.thread = c.thread
  · have stackOther := stack
    rw [← same] at stackOther
    cases trans.guard progress with
    | stays sameStack sameFlag _ _ =>
        exact placed.congr (congrFun sameStack _) (congrFun sameFlag _)
    | takes sameStack _ clear _ =>
        rw [← same] at clear
        cases placed with
        | gone returned absent => exact .gone returned (sameStack ▸ absent)
        | inner _ _ _ set _ _ | outer _ _ set _ => exact absurd (set.symm.trans clear) (by decide)
        | waiting _ _ _ _ only =>
            rw [stackOther] at only
            exact absurd (List.cons.inj only).1 other
    | leaves popped sameFlag _ _ _ =>
        refine placed.below stackOther other ?_ (congrFun sameFlag _)
        rw [popped, same, Function.update_self, stack, List.tail_cons]
    | drops popped _ held _ _ =>
        -- the call that steps is the only one in progress on the thread
        obtain rfl : rest = [] := by
          have alone := alone_of_top nodup top (own.set held).2.2
          exact (List.cons.inj (stack.symm.trans alone)).2
        have returned : d.pc = .returned := by
          by_contra running
          have := placed.mem running
          rw [stackOther, List.mem_singleton] at this
          exact other this.symm
        refine .gone returned ?_
        rw [popped, same, Function.update_self, stack, List.tail_cons]
        exact List.not_mem_nil
  · have elsewhere : w'.stack d.thread = w.stack d.thread ∧ w'.inAlloc d.thread = w.inAlloc d.thread := by
      cases trans.guard progress with
      | stays sameStack sameFlag _ _ => exact ⟨congrFun sameStack _, congrFun sameFlag _⟩
      | takes sameStack setFlag _ _ =>
          exact ⟨congrFun sameStack _, by rw [setFlag, Function.update_of_ne same]⟩
      | leaves popped sameFlag _ _ _ =>
          exact ⟨by rw [popped, Function.update_of_ne same], congrFun sameFlag _⟩
      | drops popped clearedFlag _ _ _ =>
          exact ⟨by rw [popped, Function.update_of_ne same],
            by rw [clearedFlag, Function.update_of_ne same]⟩
    exact placed.congr elsewhere.1 elsewhere.2

/-- What a call returns with, it had before. -/
theorem Trans.granted (trans : AllocCall.Trans backtraces st w c w' c') (granted : c'.granted = true)
    (returned : c'.pc = .returned) : c.granted = true := by
  cases trans with
  | systemFrees _ _ | systemGrants _ _ _ => cases returned
  | _ => exact granted

/-- Outside the tracking path a step leaves the tracked state alone. -/
theorem Trans.idle (trans : AllocCall.Trans backtraces st w c w' c') (idle : c.holdsGuard = false) :
    (c'.updates = c.updates ∧ c'.site = c.site) ∧
      w'.counters = w.counters ∧ w'.handle = w.handle ∧ w'.table = w.table := by
  cases trans with
  | systemFrees _ _ | systemFails _ _ | systemGrants _ _ _ | enters _ _ | denied _ _ =>
      exact ⟨⟨rfl, rfl⟩, rfl, rfl, rfl⟩
  | update pc | seeHandle pc _ | seeNull pc _ | register pc | noFrames pc | captured pc _ _
  | records pc _ _ | recorded pc _ _ | dropGuard pc =>
      simp only [holdsGuard, pc, Bool.true_eq_false] at idle

end AllocCall

/-! ## Every state -/

/-- What holds of a call and its thread. -/
structure AllocCall.Guarded (w : AllocWorld) (c : AllocCall) : Prop where
  placed : c.Placed w
  nested_idle : c.nested = true → c.updates = [] ∧ c.site = none
  recorded : c.nested = false → c.granted = true → c.pc = .returned →
    c.updates = c.request.updates

/-- What holds of the stacks and flags of the threads. -/
structure AllocWorld.Guarded (w : AllocWorld) : Prop where
  nodup : ∀ t, (w.stack t).Nodup
  clear : ∀ t, w.stack t = [] → w.inAlloc t = some false

variable {moves : List (Move (Nat × Request) Answer)} {s : AllocState}

theorem allocProgram_undisturbed (backtraces : Bool) (st : Statics) :
    Undisturbed (allocProgram backtraces st) Nesting AllocState.Numbered AllocWorld.Guarded
      AllocCall.Guarded where
  start_self := by
    intro s arg v c numbered cond guarded everywhere started
    obtain ⟨rfl, rfl⟩ := allocProgram_start started
    have fresh : ∀ t, s.procs.length ∉ s.shared.stack t :=
      fun t present => absurd (numbered.bound t _ present) (Nat.lt_irrefl _)
    refine ⟨⟨fun t => ?_, fun t empty => ?_⟩, ⟨?_, fun _ => ⟨rfl, rfl⟩, fun _ granted => ?_⟩⟩
    · by_cases own : t = arg.1
      · subst own
        rw [AllocWorld.call_stack_self]
        exact List.nodup_cons.mpr ⟨fresh _, guarded.nodup _⟩
      · rw [AllocWorld.call_stack_of_ne _ _ own]
        exact guarded.nodup t
    · by_cases own : t = arg.1
      · subst own
        rw [AllocWorld.call_stack_self] at empty
        cases empty
      · rw [AllocWorld.call_stack_of_ne _ _ own] at empty
        exact guarded.clear t empty
    · cases stack : s.shared.stack arg.1 with
      | nil =>
          refine .waiting ?_ rfl CallPc.noConfusion (guarded.clear _ stack) ?_
          · simp only [AllocCall.init, stack, List.isEmpty_nil, Bool.not_true]
          · rw [← stack]
            exact AllocWorld.call_stack_self ..
      | cons top rest =>
          have busy : s.shared.stack arg.1 ≠ [] := by
            rw [stack]
            exact List.cons_ne_nil _ _
          obtain ⟨d, inProcs, thread, held⟩ := cond.resolve_left busy
          obtain ⟨j, at_j⟩ := mem_procs_iff.mp inProcs
          have set := ((everywhere j d at_j).placed.set held).2.1
          rw [thread] at set
          refine .inner ?_ rfl CallPc.noConfusion set ?_ ?_
          · simp only [AllocCall.init, stack, List.isEmpty_cons, Bool.not_false]
          · simp only [AllocCall.init, AllocWorld.call_stack_self, List.mem_cons, true_or]
          · simp only [AllocCall.init, AllocWorld.call_stack_self, stack, List.getLast?_cons_cons]
            intro lastNew
            exact fresh _ (stack ▸ List.mem_of_getLast? lastNew)
    · cases granted
  start_other := by
    intro s arg v c i d numbered cond guarded everywhere started at_i own
    obtain ⟨rfl, rfl⟩ := allocProgram_start started
    obtain ⟨placed, idle, recorded⟩ := own
    refine ⟨?_, idle, recorded⟩
    by_cases same : d.thread = arg.1
    · have older : s.procs.length ≠ d.index := by
        rw [(numbered.wellFormed i d at_i).index]
        exact Nat.ne_of_gt (List.getElem?_eq_some_iff.mp at_i).1
      have holder : s.shared.stack d.thread ≠ [] → s.shared.inAlloc d.thread = some true := by
        intro busy
        rw [same] at busy ⊢
        obtain ⟨e, inProcs, thread, held⟩ := cond.resolve_left busy
        obtain ⟨j, at_j⟩ := mem_procs_iff.mp inProcs
        exact thread ▸ ((everywhere j e at_j).placed.set held).2.1
      have stack' : (s.shared.call s.procs.length arg).stack d.thread =
          s.procs.length :: s.shared.stack d.thread := by
        rw [same, AllocWorld.call_stack_self]
      cases placed with
      | gone returned absent =>
          refine .gone returned ?_
          rw [stack']
          exact List.not_mem_cons_of_ne_of_not_mem (Ne.symm older) absent
      | inner nested idle running set present notLast =>
          refine .inner nested idle running set ?_ ?_
          · rw [stack']
            exact List.mem_cons_of_mem _ present
          · obtain ⟨top, rest, stack⟩ := List.exists_cons_of_ne_nil (List.ne_nil_of_mem present)
            rw [stack', stack, List.getLast?_cons_cons, ← stack]
            exact notLast
      | outer outermost held set last =>
          refine .outer outermost held set ?_
          obtain ⟨top, rest, stack⟩ :=
            List.exists_cons_of_ne_nil (List.ne_nil_of_mem (List.mem_of_getLast? last))
          rw [stack', stack, List.getLast?_cons_cons, ← stack]
          exact last
      | waiting _ _ _ clear only =>
          have set := holder (by rw [only]; exact List.cons_ne_nil _ _)
          exact absurd (set.symm.trans clear) (by decide)
    · exact placed.congr (AllocWorld.call_stack_of_ne _ _ same) rfl
  act_self := by
    intro s i c a v c' numbered _ guarded at_i own acted
    obtain ⟨top, trans⟩ := allocProgram_act acted
    obtain ⟨placed, idle, recorded⟩ := own
    have progress := (numbered.wellFormed i c at_i).progress
    have nodup := guarded.nodup c.thread
    obtain ⟨_, thread, request, nested⟩ := trans.kept
    refine ⟨⟨fun t => ?_, placed.clear trans progress top guarded.clear⟩,
      placed.step trans progress nodup top, fun isNested => ?_, fun outermost granted returned => ?_⟩
    · rcases trans.stack t with same | ⟨_, popped, _⟩
      · exact same ▸ guarded.nodup t
      · exact popped ▸ (guarded.nodup t).tail
    · rw [nested] at isNested
      have noGuard : c.holdsGuard = false :=
        Bool.eq_false_of_not_eq_true fun held =>
          absurd (isNested.symm.trans (placed.set held).1) (by decide)
      obtain ⟨⟨updates, site⟩, _⟩ := trans.idle noGuard
      rw [updates, site]
      exact idle isNested
    · exact placed.recorded trans progress (nested ▸ outermost) (trans.granted granted returned)
        returned
  act_other := by
    intro s i c a v c' j d numbered _ guarded at_i ownC acted other at_j ownD
    obtain ⟨top, trans⟩ := allocProgram_act acted
    obtain ⟨placed, idle, recorded⟩ := ownD
    have wellFormed := numbered.wellFormed i c at_i
    refine ⟨placed.other ownC.placed trans wellFormed.progress (guarded.nodup _) top ?_, idle, recorded⟩
    rw [wellFormed.index, (numbered.wellFormed j d at_j).index]
    exact Ne.symm other

theorem guarded_of_exec (run : (allocProgram backtraces st).Exec Nesting AllocState.initial moves s) :
    s.shared.Guarded ∧ Everywhere AllocCall.Guarded s :=
  Exec.interference (fun _ _ _ numbered _ stepped => numbered.step stepped)
    (allocProgram_undisturbed backtraces st) run AllocState.Numbered.initial
    ⟨⟨fun _ => List.nodup_nil, fun _ _ => rfl⟩, fun i c atIndex => by cases atIndex⟩

/-! ## Nested calls are forwarded, outermost calls are recorded once -/

namespace AllocCall

/-- A call that holds no guard has come to one of three places. -/
theorem pc_of_idle (idle : c.holdsGuard = false) : c.pc = .system ∨ c.pc = .enter ∨ c.pc = .returned := by
  unfold holdsGuard at idle
  split at idle
  case h_1 pc => exact .inl pc
  case h_2 pc => exact .inr (.inl pc)
  case h_3 pc => exact .inr (.inr pc)
  case h_4 => cases idle

theorem Placed.idle_of_nested (placed : c.Placed w) (nested : c.nested = true) :
    c.holdsGuard = false :=
  Bool.eq_false_of_not_eq_true fun held => absurd (nested.symm.trans (placed.set held).1) (by decide)

theorem Placed.flag_of_nested (placed : c.Placed w) (nested : c.nested = true)
    (running : c.pc ≠ .returned) : w.inAlloc c.thread = some true := by
  cases placed with
  | gone returned _ => exact absurd returned running
  | inner _ _ _ set _ _ => exact set
  | outer outermost _ _ _ | waiting outermost _ _ _ _ =>
      exact absurd (nested.symm.trans outermost) (by decide)

/-- An outermost call leaves its thread without calls. -/
theorem Placed.empties (placed : c.Placed w) (trans : AllocCall.Trans backtraces st w c w' c')
    (progress : c.Progress) (nodup : (w.stack c.thread).Nodup)
    (top : (w.stack c.thread).head? = some c.index) (outermost : c.nested = false)
    (returned : c'.pc = .returned) : w'.stack c.thread = [] := by
  have bottom : (w.stack c.thread).getLast? = some c.index := by
    cases placed with
    | gone returned _ => exact absurd returned trans.running
    | inner nested _ _ _ _ _ => exact absurd (nested.symm.trans outermost) (by decide)
    | outer _ _ _ last => exact last
    | waiting _ _ _ _ only => rw [only]; rfl
  have alone := alone_of_top nodup top bottom
  cases trans.guard progress with
  | stays _ _ _ running => exact absurd returned running
  | takes _ _ _ held => exact absurd returned (ne_returned_of_holdsGuard held)
  | leaves popped _ _ _ _ | drops popped _ _ _ _ =>
      rw [popped, Function.update_self, alone, List.tail_cons]

/-- A call that was not given what it asked for records nothing. -/
theorem Progress.of_denied (progress : c.Progress) (denied : c.granted = false) :
    c.updates = [] ∧ c.site = none := by
  have contra : ∀ {P : Prop}, c.granted = true → P :=
    fun granted => absurd (denied.symm.trans granted) (by decide)
  unfold Progress at progress
  split at progress
  case h_1 => exact progress.2
  case h_9 => exact progress.elim id fun granted => contra granted.1
  all_goals exact contra progress.1

/-- The effect of a call that has returned. -/
theorem effect_returned {k : Counter} {i : Nat} (wellFormed : c.WellFormed i)
    (guarded : c.Guarded w) (returned : c.pc = .returned) :
    c.effect k = if c.nested = false ∧ c.granted = true then c.request.effect k else 0 := by
  rw [effect]
  split
  case isTrue recorded =>
      rw [guarded.recorded recorded.1 recorded.2 returned]
      rfl
  case isFalse unrecorded =>
      have none : c.updates = [] := by
        cases nested : c.nested with
        | true => exact (guarded.nested_idle nested).1
        | false =>
            cases granted : c.granted with
            | true => exact absurd ⟨nested, granted⟩ unrecorded
            | false => exact (wellFormed.progress.of_denied granted).1
      rw [none]
      rfl

/-- A step of a call is entered in its list of updates, or leaves the counters alone. -/
theorem Trans.logs (trans : AllocCall.Trans backtraces st w c w' c') :
    (c'.updates = c.updates ∧ w'.counters = w.counters) ∨
      ∃ u old, c'.updates = c.updates ++ [u] ∧ w'.counters = (u.exec (w.counters, old)).1 := by
  cases trans with
  | @update u rest old pc => exact .inr ⟨u, old, rfl, rfl⟩
  | _ => exact .inl ⟨rfl, rfl⟩

end AllocCall

def nestedMoves : List (Move (Nat × Request) Answer) :=
  .start (0, .alloc 16) :: .act 0 (.bare 0x1000) :: .act 0 (.bare 0) ::
    .start (0, .alloc 8) :: .act 1 (.bare 0x2000) :: .act 1 (.bare 0) ::
    List.replicate 10 (.act 0 (.bare 0))

def nestedEnd : AllocState :=
  ((allocProgram true raceStatics).run Nesting AllocState.initial nestedMoves).get (by decide)

theorem nestedRun :
    (allocProgram true raceStatics).Exec Nesting AllocState.initial nestedMoves nestedEnd :=
  Exec.of_run (Option.some_get (by decide)).symm

end ModAlloc
