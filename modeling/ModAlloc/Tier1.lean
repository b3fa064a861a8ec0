import ModAlloc.Ledger

/-!
# Programs that make no nested calls

Any number of threads make calls one after the other, on blocks that they own and
with the layouts that the blocks have (`Disciplined`). All their calls are tracked,
and the blocks on which there is no operation are the blocks alive.
-/

namespace ModAlloc

open Interleaving Interleaving.Program

variable {backtraces : Bool} {st : Statics} {w w' : AllocWorld} {c c' : AllocCall}
  {moves : List (Move (Nat × Request) Answer)} {s s' : AllocState}

/-! ## The calls a program makes -/

/-- A thread makes one call at a time, on a block that exists and that no other
call has, and does not ask for zero bytes. -/
def Disciplined (s : AllocState) : Move (Nat × Request) Answer → Prop
  | .start (t, request) => s.shared.stack t = [] ∧ request.consumed ⊆ s.shared.idle ∧
      (request.isDealloc = true ∨ request.size ≠ 0)
  | .act _ _ => True

instance (s : AllocState) : ∀ m, Decidable (Disciplined s m)
  | .start (t, request) => inferInstanceAs (Decidable (s.shared.stack t = [] ∧
      request.consumed ⊆ s.shared.idle ∧ (request.isDealloc = true ∨ request.size ≠ 0)))
  | .act _ _ => .isTrue trivial

theorem Disciplined.nesting {m : Move (Nat × Request) Answer} (cond : Disciplined s m) :
    Nesting s m := by
  cases m with
  | start arg => exact .inl cond.1
  | act i a => trivial

theorem consumed_le_of_subset {idle : List Block} {request : Request}
    (owned : request.consumed ⊆ idle) : (request.consumed : Multiset Block) ≤ idle := by
  cases request with
  | alloc size | allocZeroed size => exact Multiset.zero_le _
  | dealloc block | realloc block newSize =>
      exact Multiset.singleton_le.mpr (owned List.mem_cons_self)

/-- A step that ends the call hands the block back. -/
theorem AllocCall.Trans.idleBlocks (trans : AllocCall.Trans backtraces st w c w' c') :
    (c'.pc ≠ .returned ∧ w'.idle = w.idle) ∨
      (c'.pc = .returned ∧ c'.ptr = c.ptr ∧ w'.idle = w.idle ++ c.request.produced c.ptr) := by
  cases trans with
  | systemFails _ _ | denied _ _ | dropGuard _ => exact .inr ⟨rfl, rfl, rfl⟩
  | enters _ _ | update _ => exact .inl ⟨withUpdates_ne_returned _ _ _, rfl⟩
  | seeHandle _ _ | register _ => exact .inl ⟨afterRegister_ne_returned _, rfl⟩
  | _ => exact .inl ⟨CallPc.noConfusion, rfl⟩

/-- Under discipline no call is nested. -/
theorem disciplined_calls
    (run : (allocProgram backtraces st).Exec Disciplined AllocState.initial moves s) :
    ∀ c ∈ s.procs, c.nested = false := by
  refine started_of_exec (K := fun _ nested => nested = false) ?_ run
  intro s arg cond
  rw [cond.1, List.isEmpty_nil, Bool.not_true]

/-- What is at rest and what has been taken are what has been made. -/
def AllocState.Balanced (s : AllocState) : Prop :=
  (s.shared.idle : Multiset Block) + (s.procs.map AllocCall.taken).sum =
    (s.procs.map AllocCall.made).sum

theorem AllocState.Balanced.live (balanced : s.Balanced) : s.live = s.shared.idle := by
  rw [AllocState.live, ← balanced, add_tsub_cancel_right]

theorem AllocState.Balanced.start {arg : Nat × Request} (balanced : s.Balanced)
    (outermost : s.shared.stack arg.1 = []) (owned : arg.2.consumed ⊆ s.shared.idle) :
    AllocState.Balanced ⟨s.shared.call s.procs.length arg,
      s.procs ++ [.init s.shared s.procs.length arg.1 arg.2]⟩ := by
  have fresh : (AllocCall.init s.shared s.procs.length arg.1 arg.2).made = 0 :=
    if_neg fun gone => by cases gone.2
  have takes : (AllocCall.init s.shared s.procs.length arg.1 arg.2).taken = arg.2.consumed := by
    simp only [AllocCall.taken, AllocCall.init, outermost, List.isEmpty_nil, Bool.not_true,
      Bool.false_eq_true, if_false]
  have parts := tsub_add_cancel_of_le (consumed_le_of_subset owned)
  simp only [AllocState.Balanced, AllocWorld.call, List.map_append, List.map_cons, List.map_nil,
    List.sum_append, List.sum_cons, List.sum_nil, add_zero, fresh, takes, ← Multiset.coe_sub]
  rw [← balanced, ← parts, add_tsub_cancel_right, add_right_comm, add_assoc]

theorem AllocState.Balanced.act {i : Nat} (balanced : s.Balanced) (at_i : s.procs[i]? = some c)
    (outermost : c.nested = false) (trans : AllocCall.Trans backtraces st s.shared c w' c') :
    AllocState.Balanced ⟨w', s.procs.set i c'⟩ := by
  obtain ⟨made, taken⟩ := trans.blocks
  obtain ⟨_, _, request, nested⟩ := trans.kept
  have takenSum := sum_set_add AllocCall.taken c' at_i
  have madeSum := sum_set_add AllocCall.made c' at_i
  rw [taken] at takenSum
  rw [made, add_zero] at madeSum
  rw [AllocState.Balanced, add_right_cancel takenSum, madeSum, ← balanced]
  rcases trans.idleBlocks with ⟨running, idle⟩ | ⟨returned, ptr, idle⟩
  · rw [idle, AllocCall.made, if_neg fun gone => running gone.2, add_zero]
  · rw [idle, AllocCall.made, if_pos ⟨nested.trans outermost, returned⟩, request, ptr,
      ← Multiset.coe_add, add_right_comm]

/-- **Disciplined calls are tracked**, and the blocks at rest are those alive. -/
theorem tracked_of_disciplined
    (run : (allocProgram backtraces st).Exec Disciplined AllocState.initial moves s) :
    (allocProgram backtraces st).Exec Tracked AllocState.initial moves s ∧ s.Balanced := by
  refine Exec.snocInduction (motive := fun moves (s : AllocState) =>
    (allocProgram backtraces st).Exec Tracked AllocState.initial moves s ∧ s.Balanced)
    ⟨.nil _, rfl⟩ ?_ run
  intro moves s m s' run cond stepped ⟨tracked, balanced⟩
  cases m with
  | start arg =>
      obtain ⟨outermost, owned, sized⟩ := cond
      refine ⟨tracked.snoc ⟨sized, .inl ⟨outermost, ?_⟩⟩ stepped, ?_⟩
      · rw [balanced.live]
        exact consumed_le_of_subset owned
      · obtain ⟨v, c, started, rfl⟩ := step_start stepped
        obtain ⟨rfl, rfl⟩ := allocProgram_start started
        exact balanced.start outermost owned
  | act i a =>
      refine ⟨tracked.snoc trivial stepped, ?_⟩
      obtain ⟨c, v, c', at_i, acted, rfl⟩ := step_act stepped
      exact balanced.act at_i (disciplined_calls run c (mem_procs_iff.mpr ⟨i, at_i⟩))
        (allocProgram_act acted).2

end ModAlloc
