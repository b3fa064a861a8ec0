import ModAlloc.Counters
import ModAlloc.Backtrace.Walk
import ModAlloc.Backtrace.Record

/-!
# `GlobalAlloc` for `ModAlloc`

The calls `alloc`, `alloc_zeroed`, `dealloc` and `realloc` as processes: the call
to `System`, the access to the reentrancy flag, every counter operation, the
registration in `GLOBAL_HANDLE`, the capture, and each step of `record` on the
call-site table are one atomic step each. Calls on one thread form a stack, of
which only the innermost makes steps.

The table is the machine of `ModAlloc.Backtrace.Table`, a part of the shared
state: a call that records an event starts a process of it and steps that process
to its end.
-/

namespace ModAlloc

open Interleaving Interleaving.Program

/-- A block as the client knows it: where it is, and the size of its layout. -/
structure Block where
  ptr : Nat
  size : U64
deriving DecidableEq, Repr

/-- The methods of `GlobalAlloc`, with the sizes of the layouts. -/
inductive Request where
  | alloc (size : U64)
  | allocZeroed (size : U64)
  | dealloc (block : Block)
  | realloc (block : Block) (newSize : U64)
deriving DecidableEq, Repr

namespace Request

/-- The counter updates of the call. -/
def updates : Request → List Update
  | .alloc size | .allocZeroed size => recordAlloc size
  | .dealloc block => recordDealloc block.size
  | .realloc block newSize => recordRealloc block.size newSize

/-- The bytes the call asks for, which are those it is recorded with. -/
def size : Request → U64
  | .alloc size | .allocZeroed size => size
  | .dealloc _ => 0
  | .realloc _ newSize => newSize

def isDealloc : Request → Bool
  | .dealloc _ => true
  | _ => false

/-- The block that the client hands over to the call. -/
def consumed : Request → List Block
  | .dealloc block | .realloc block _ => [block]
  | _ => []

/-- The block that the client has after the call, where `System` returned `ptr`. -/
def produced (ptr : Nat) : Request → List Block
  | .alloc size | .allocZeroed size => if ptr = 0 then [] else [⟨ptr, size⟩]
  | .dealloc _ => []
  | .realloc block newSize => if ptr = 0 then [block] else [⟨ptr, newSize⟩]

end Request

/-- The next atomic step of a call. -/
inductive CallPc where
  /-- the call to `System` -/
  | system
  /-- `ReentryGuard::enter` -/
  | enter
  /-- a counter operation, the ones after it, and the value `fetch_add` returned last -/
  | update (next : Update) (rest : List Update) (old : U64)
  /-- `GLOBAL_HANDLE.load` -/
  | loadHandle
  /-- `GLOBAL_HANDLE.compare_exchange` -/
  | casHandle
  /-- `record_event` up to the call of `record` -/
  | capture
  /-- a step of `record`, the `k`-th process on the table -/
  | inTable (k : Nat)
  /-- the drop of the guard, and the return -/
  | dropGuard
  | returned
deriving DecidableEq, Repr

/-- A `GlobalAlloc` call in progress. `nested` says that it was made inside
another call on its thread; `granted` that `System` did what was asked; `updates`
are the counter operations made so far and `site` the process that records the
event on the table. -/
structure AllocCall where
  index : Nat
  thread : Nat
  request : Request
  nested : Bool
  granted : Bool
  ptr : Nat
  updates : List Update
  site : Option Nat
  pc : CallPc
deriving DecidableEq, Repr

/-- The shared state. `inAlloc t` is the flag `IN_ALLOC` of thread `t`, `none` when
its storage is gone; `stack t` are the calls in progress on thread `t`, innermost
first; `idle` are the live blocks on which there is no operation. -/
structure AllocWorld where
  counters : Counters
  handle : Bool
  inAlloc : Nat → Option Bool
  stack : Nat → List Nat
  idle : List Block
  table : TableState

/-- What the environment contributes to a step: the pointer that `System` returns,
and what a capture finds. -/
structure Answer where
  ptr : Nat
  fp : U64
  bounds : Option StackBounds
  words : U64 → U64

/-- An environment in which nothing can be captured. -/
def Answer.bare (ptr : Nat) : Answer := ⟨ptr, 0, none, fun _ => 0⟩

/-- A process that has just begun: counters at zero, no call, an empty table. -/
def AllocWorld.initial : AllocWorld :=
  { counters := Counters.new, handle := false, inAlloc := fun _ => some false
    stack := fun _ => [], idle := [], table := TableState.empty }

/-- A call begins: it is on top of its thread, and takes over the block it is made for. -/
def AllocWorld.call (w : AllocWorld) (index : Nat) (arg : Nat × Request) : AllocWorld :=
  { w with stack := Function.update w.stack arg.1 (index :: w.stack arg.1)
           idle := w.idle.diff arg.2.consumed }

@[simp] theorem AllocWorld.call_stack_self (w : AllocWorld) (index : Nat) (arg : Nat × Request) :
    (w.call index arg).stack arg.1 = index :: w.stack arg.1 := Function.update_self ..

theorem AllocWorld.call_stack_of_ne {t : Nat} (w : AllocWorld) (index : Nat) {arg : Nat × Request}
    (other : t ≠ arg.1) : (w.call index arg).stack t = w.stack t := Function.update_of_ne other ..

namespace AllocCall

def init (w : AllocWorld) (index thread : Nat) (request : Request) : AllocCall :=
  { index, thread, request, nested := !(w.stack thread).isEmpty, granted := false, ptr := 0
    updates := [], site := none, pc := .system }

/-- The call returns: the thread goes on with the caller, the client with the block. -/
def leave (w : AllocWorld) (c : AllocCall) : AllocWorld :=
  { w with stack := Function.update w.stack c.thread (w.stack c.thread).tail
           idle := w.idle ++ c.request.produced c.ptr }

@[simp] theorem leave_stack_self (w : AllocWorld) (c : AllocCall) :
    (leave w c).stack c.thread = (w.stack c.thread).tail := Function.update_self ..

theorem leave_stack_of_ne {t : Nat} (w : AllocWorld) {c : AllocCall} (other : t ≠ c.thread) :
    (leave w c).stack t = w.stack t := Function.update_of_ne other ..

/-- After `register_self`. -/
def afterRegister (backtraces : Bool) : CallPc := if backtraces then .capture else .dropGuard

/-- With these updates left. -/
def withUpdates (request : Request) (old : U64) : List Update → CallPc
  | u :: us => .update u us old
  | [] => if request.isDealloc then .dropGuard else .loadHandle

/-- The table process has returned. -/
def recorded (table : TableState) (k : Nat) : Bool :=
  match table.procs[k]? with
  | some (.record r) => r.pc.isReturned
  | _ => false

/-- One atomic step of the innermost call on its thread. -/
def step (backtraces : Bool) (st : Statics) (w : AllocWorld) (c : AllocCall) (a : Answer) :
    Option (AllocWorld × AllocCall) :=
  if (w.stack c.thread).head? ≠ some c.index then none
  else match c.pc with
  | .system =>
      if c.request.isDealloc then some (w, { c with granted := true, pc := .enter })
      else if a.ptr = 0 then some (leave w c, { c with pc := .returned })
      else some (w, { c with granted := true, ptr := a.ptr, pc := .enter })
  | .enter =>
      match w.inAlloc c.thread with
      | some false =>
          some ({ w with inAlloc := Function.update w.inAlloc c.thread (some true) },
            { c with pc := withUpdates c.request 0 c.request.updates })
      | _ => some (leave w c, { c with pc := .returned })
  | .update u rest old =>
      let r := u.exec (w.counters, old)
      some ({ w with counters := r.1 },
        { c with updates := c.updates ++ [u], pc := withUpdates c.request r.2 rest })
  | .loadHandle =>
      some (w, { c with pc := if w.handle then afterRegister backtraces else .casHandle })
  | .casHandle => some ({ w with handle := true }, { c with pc := afterRegister backtraces })
  | .capture =>
      match captureEvent a.fp a.bounds a.words with
      | none => some (w, { c with pc := .dropGuard })
      | some frames =>
          ((tableProgram st).step w.table (.start (.record frames c.request.size))).map fun table =>
            ({ w with table }, { c with site := some w.table.procs.length
                                        pc := .inTable w.table.procs.length })
  | .inTable k =>
      ((tableProgram st).step w.table (.act k ())).map fun table =>
        ({ w with table }, { c with pc := if recorded table k then .dropGuard else .inTable k })
  | .dropGuard =>
      let flag := (w.inAlloc c.thread).map fun _ => false
      some (leave { w with inAlloc := Function.update w.inAlloc c.thread flag } c,
        { c with pc := .returned })
  | .returned => none

/-- What one step of a call does. -/
inductive Trans (backtraces : Bool) (st : Statics) (w : AllocWorld) (c : AllocCall) :
    AllocWorld → AllocCall → Prop
  | systemFrees : c.pc = .system → c.request.isDealloc = true →
    Trans backtraces st w c w { c with granted := true, pc := .enter }
  | systemFails : c.pc = .system → c.request.isDealloc = false →
    Trans backtraces st w c (leave w c) { c with pc := .returned }
  | systemGrants {ptr : Nat} : c.pc = .system → c.request.isDealloc = false → ptr ≠ 0 →
    Trans backtraces st w c w { c with granted := true, ptr, pc := .enter }
  | enters : c.pc = .enter → w.inAlloc c.thread = some false →
    Trans backtraces st w c
      { w with inAlloc := Function.update w.inAlloc c.thread (some true) }
      { c with pc := withUpdates c.request 0 c.request.updates }
  | denied : c.pc = .enter → w.inAlloc c.thread ≠ some false →
    Trans backtraces st w c (leave w c) { c with pc := .returned }
  | update {u : Update} {rest : List Update} {old : U64} : c.pc = .update u rest old →
    Trans backtraces st w c { w with counters := (u.exec (w.counters, old)).1 }
      { c with updates := c.updates ++ [u]
               pc := withUpdates c.request (u.exec (w.counters, old)).2 rest }
  | seeHandle : c.pc = .loadHandle → w.handle = true →
    Trans backtraces st w c w { c with pc := afterRegister backtraces }
  | seeNull : c.pc = .loadHandle → w.handle = false →
    Trans backtraces st w c w { c with pc := .casHandle }
  | register : c.pc = .casHandle →
    Trans backtraces st w c { w with handle := true } { c with pc := afterRegister backtraces }
  | noFrames : c.pc = .capture → Trans backtraces st w c w { c with pc := .dropGuard }
  | captured {frames : Frames} {table : TableState} : c.pc = .capture → 1 ≤ frames.count.val →
    (tableProgram st).step w.table (.start (.record frames c.request.size)) = some table →
    Trans backtraces st w c { w with table }
      { c with site := some w.table.procs.length, pc := .inTable w.table.procs.length }
  | records {k : Nat} {table : TableState} : c.pc = .inTable k →
    (tableProgram st).step w.table (.act k ()) = some table → recorded table k = false →
    Trans backtraces st w c { w with table } { c with pc := .inTable k }
  | recorded {k : Nat} {table : TableState} : c.pc = .inTable k →
    (tableProgram st).step w.table (.act k ()) = some table → recorded table k = true →
    Trans backtraces st w c { w with table } { c with pc := .dropGuard }
  | dropGuard : c.pc = .dropGuard →
    Trans backtraces st w c
      (leave { w with inAlloc := Function.update w.inAlloc c.thread
                                   ((w.inAlloc c.thread).map fun _ => false) } c)
      { c with pc := .returned }

theorem trans_of_step {backtraces : Bool} {st : Statics} {w w' : AllocWorld} {c c' : AllocCall}
    {a : Answer} (stepped : c.step backtraces st w a = some (w', c')) :
    (w.stack c.thread).head? = some c.index ∧ Trans backtraces st w c w' c' := by
  unfold step at stepped
  split at stepped
  · cases stepped
  · rename_i top
    refine ⟨not_ne_iff.mp top, ?_⟩
    split at stepped
    case h_1 pc =>
      split at stepped
      · cases stepped
        exact .systemFrees pc ‹_›
      · have notDealloc := Bool.eq_false_of_not_eq_true ‹¬ c.request.isDealloc = true›
        split at stepped
        · cases stepped
          exact .systemFails pc notDealloc
        · cases stepped
          exact .systemGrants pc notDealloc ‹_›
    case h_2 pc =>
      split at stepped
      · cases stepped
        exact .enters pc ‹_›
      · cases stepped
        exact .denied pc ‹_›
    case h_3 u rest old pc => cases stepped; exact .update pc
    case h_4 pc =>
      cases stepped
      split
      · exact .seeHandle pc ‹_›
      · exact .seeNull pc (Bool.eq_false_of_not_eq_true ‹_›)
    case h_5 pc => cases stepped; exact .register pc
    case h_6 pc =>
      split at stepped
      · cases stepped
        exact .noFrames pc
      · obtain ⟨table, started, eq⟩ := Option.map_eq_some_iff.mp stepped
        cases eq
        exact .captured pc (count_pos_of_captureEvent ‹_›) started
    case h_7 k pc =>
      obtain ⟨table, acted, eq⟩ := Option.map_eq_some_iff.mp stepped
      cases eq
      split
      · exact .recorded pc acted ‹_›
      · exact .records pc acted (Bool.eq_false_of_not_eq_true ‹_›)
    case h_8 pc => cases stepped; exact .dropGuard pc
    case h_9 => cases stepped

end AllocCall

/-- Any number of `GlobalAlloc` calls on any threads, through one `ModAlloc`. -/
def allocProgram (backtraces : Bool) (st : Statics) :
    Program AllocWorld AllocCall (Nat × Request) Answer where
  start w index arg := some (w.call index arg, .init w index arg.1 arg.2)
  act w _ c a := c.step backtraces st w a

abbrev AllocState := Pool AllocWorld AllocCall

def AllocState.initial : AllocState := ⟨AllocWorld.initial, []⟩

/-- The call has passed `ReentryGuard::enter` and not yet dropped the guard. -/
def AllocCall.holdsGuard (c : AllocCall) : Bool :=
  match c.pc with
  | .system | .enter | .returned => false
  | _ => true

/-- The call was asked for a block and has it. -/
def AllocCall.allocated (c : AllocCall) : Bool := c.granted && !c.request.isDealloc

/-- No call is in progress. -/
def AllocState.Quiescent (s : AllocState) : Prop := ∀ c ∈ s.procs, c.pc = .returned

instance (s : AllocState) : Decidable s.Quiescent :=
  inferInstanceAs (Decidable (∀ c ∈ s.procs, c.pc = .returned))

end ModAlloc
