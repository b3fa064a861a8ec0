import ModAlloc.Guard

/-!
# The ledger of the tracked calls

A call that is not nested is tracked. The tracked calls that have returned have made
blocks, and all tracked calls have taken blocks over: what has been made and not been
taken is alive (`AllocState.live`). Where each tracked call takes a block that is
alive (`Tracked`), and the sizes granted add up to less than `2 ^ 64`, each counter
other than the peaks holds the plain sum of the updates made to it
(`AllocState.exact`), which is neither negative nor too large: a call in flight has
in hand what it takes from a counter (`AllocCall.pending`).
-/

namespace ModAlloc

open Interleaving Interleaving.Program

variable {backtraces : Bool} {st : Statics} {w w' : AllocWorld} {c c' : AllocCall}
  {moves : List (Move (Nat × Request) Answer)} {s s' : AllocState}

/-- The sizes granted so far. -/
def AllocState.grantedBytes (s : AllocState) : Nat :=
  ((s.procs.filter AllocCall.allocated).map fun c => c.request.size.toNat).sum

/-- The value of a counter if it did not wrap. -/
def AllocState.exact (s : AllocState) (k : Counter) : ℤ := (s.procs.map (AllocCall.effect k)).sum

/-! ## One call -/

/-- What the updates made so far can have added. -/
structure Request.Bounds (request : Request) (done : List Update) : Prop where
  current_le : (done.map (Update.change .currentBytes)).sum ≤
    (done.map (Update.change .totalBytes)).sum
  live_le : (done.map (Update.change .liveCount)).sum ≤ (done.map (Update.change .allocCount)).sum
  total_le : (done.map (Update.change .totalBytes)).sum ≤ request.size.toNat
  count_le : (done.map (Update.change .allocCount)).sum ≤ if request.isDealloc then 0 else 1
  current_ge : 0 ≤ (done.map (Update.change .currentBytes)).sum +
    (request.consumed.map fun b => (b.size.toNat : ℤ)).sum
  live_ge : 0 ≤ (done.map (Update.change .liveCount)).sum +
    (request.consumed.map fun _ => (1 : ℤ)).sum

theorem Request.Bounds.count_le_size {request : Request} {done : List Update}
    (bounds : request.Bounds done) (sized : request.isDealloc = true ∨ request.size ≠ 0) :
    (done.map (Update.change .allocCount)).sum ≤ request.size.toNat := by
  refine bounds.count_le.trans ?_
  split
  · exact Int.natCast_nonneg _
  · have nonzero : request.size.toNat ≠ 0 := fun zero =>
      (sized.resolve_left ‹_›) (BitVec.eq_of_toNat_eq zero)
    omega

theorem Request.bounds {request : Request} {done : List Update} (sofar : done <+: request.updates) :
    request.Bounds done := by
  rw [← List.mem_inits] at sofar
  cases request with
  | alloc size | allocZeroed size =>
      simp only [updates, recordAlloc, List.inits, List.map_cons, List.map_nil, List.mem_cons,
        List.not_mem_nil, or_false] at sofar
      rcases sofar with rfl | rfl | rfl | rfl | rfl | rfl | rfl <;>
        constructor <;> simp [Update.change, Request.size, isDealloc, consumed]
  | dealloc block =>
      simp only [updates, recordDealloc, List.inits, List.map_cons, List.map_nil, List.mem_cons,
        List.not_mem_nil, or_false] at sofar
      rcases sofar with rfl | rfl | rfl <;>
        constructor <;> simp [Update.change, Request.size, isDealloc, consumed]
  | realloc block newSize =>
      simp only [updates] at sofar
      rcases BitVec.lt_trichotomy block.size newSize with grows | same | shrinks
      · have order : block.size.toNat < newSize.toNat := grows
        have delta := BitVec.toNat_sub_of_le (BitVec.le_of_lt grows)
        simp only [recordRealloc_of_lt grows, List.inits, List.map_cons, List.map_nil, List.mem_cons,
          List.not_mem_nil, or_false] at sofar
        rcases sofar with rfl | rfl | rfl | rfl | rfl <;>
          constructor <;> simp [Update.change, Request.size, isDealloc, consumed, delta] <;> omega
      · simp only [same, recordRealloc_self, List.inits, List.map_cons, List.map_nil, List.mem_cons,
          List.not_mem_nil, or_false] at sofar
        rcases sofar with rfl | rfl <;>
          constructor <;> simp [Update.change, Request.size, isDealloc, consumed]
      · have delta := BitVec.toNat_sub_of_le (BitVec.le_of_lt shrinks)
        simp only [recordRealloc_of_gt shrinks, List.inits, List.map_cons, List.map_nil,
          List.mem_cons, List.not_mem_nil, or_false] at sofar
        rcases sofar with rfl | rfl | rfl <;>
          constructor <;> simp [Update.change, Request.size, isDealloc, consumed, delta]

theorem Request.size_of_dealloc {request : Request} (kind : request.isDealloc = true) :
    request.size = 0 := by
  cases request with
  | dealloc block => rfl
  | _ => cases kind

/-- The updates made are the first ones of those to make. -/
theorem AllocCall.Progress.sofar (progress : c.Progress) : c.updates <+: c.request.updates := by
  have none : c.updates = [] → c.updates <+: c.request.updates :=
    fun none => none ▸ List.nil_prefix
  have full : c.updates = c.request.updates → c.updates <+: c.request.updates :=
    fun full => full ▸ List.prefix_rfl
  unfold Progress at progress
  split at progress
  case h_1 | h_2 => exact none progress.2.1
  case h_3 u rest _ pc => exact ⟨u :: rest, progress.2.1⟩
  case h_9 => exact progress.elim (fun left => none left.1) fun right => full right.2.1
  all_goals exact full progress.2.1

/-- The counter `k` is to hold the sum of `g` over the live blocks: what a granted
call does to it is what it does to the blocks, and on the way there it takes no
more than the call has in hand. -/
structure Measures (k : Counter) (g : Block → ℤ) : Prop where
  nonneg : ∀ b, 0 ≤ g b
  granted : ∀ (request : Request) (ptr : Nat), (request.isDealloc = false → ptr ≠ 0) →
    request.effect k = ((request.produced ptr).map g).sum - (request.consumed.map g).sum
  inHand : ∀ (request : Request) (done : List Update), done <+: request.updates →
    0 ≤ (done.map (Update.change k)).sum + (request.consumed.map g).sum

theorem measures_currentBytes : Measures .currentBytes fun b => b.size.toNat where
  nonneg b := Int.natCast_nonneg _
  granted request ptr nonnull := by
    cases request with
    | alloc size | allocZeroed size =>
        have nonnull := nonnull rfl
        simp [Request.effect, Request.updates, recordAlloc, Update.change, Request.produced,
          Request.consumed, nonnull]
    | dealloc block =>
        simp [Request.effect, Request.updates, recordDealloc, Update.change, Request.produced,
          Request.consumed]
    | realloc block newSize =>
        have nonnull := nonnull rfl
        simp only [Request.effect, Request.updates]
        rcases BitVec.lt_trichotomy block.size newSize with grows | same | shrinks
        · have order : block.size.toNat < newSize.toNat := grows
          simp [recordRealloc_of_lt grows, Update.change, Request.produced, Request.consumed, nonnull,
            BitVec.toNat_sub_of_le (BitVec.le_of_lt grows)]
          omega
        · simp [same, recordRealloc_self, Update.change, Request.produced, Request.consumed, nonnull]
        · have order : newSize.toNat < block.size.toNat := shrinks
          simp [recordRealloc_of_gt shrinks, Update.change, Request.produced, Request.consumed, nonnull,
            BitVec.toNat_sub_of_le (BitVec.le_of_lt shrinks)]
          omega
  inHand request done sofar := (Request.bounds sofar).current_ge

theorem measures_liveCount : Measures .liveCount fun _ => 1 where
  nonneg b := Int.one_nonneg
  granted request ptr nonnull := by
    cases request with
    | alloc size | allocZeroed size =>
        have nonnull := nonnull rfl
        simp [Request.effect, Request.updates, recordAlloc, Update.change, Request.produced,
          Request.consumed, nonnull]
    | dealloc block => rfl
    | realloc block newSize =>
        have nonnull := nonnull rfl
        simp only [Request.effect, Request.updates]
        rcases BitVec.lt_trichotomy block.size newSize with grows | same | shrinks
        · simp [recordRealloc_of_lt grows, Update.change, Request.produced, Request.consumed, nonnull]
        · simp [same, recordRealloc_self, Update.change, Request.produced, Request.consumed, nonnull]
        · simp [recordRealloc_of_gt shrinks, Update.change, Request.produced, Request.consumed, nonnull]
  inHand request done sofar := (Request.bounds sofar).live_ge

/-- What a call has given to the blocks at rest, less what it has taken from them. -/
def AllocCall.given (g : Block → ℤ) (c : AllocCall) : ℤ :=
  (if c.pc = .returned then ((c.request.produced c.ptr).map g).sum else 0) -
    (c.request.consumed.map g).sum

/-- An outermost call has not taken more from the counter than from the blocks, and
in the end the same. -/
theorem AllocCall.pending {k : Counter} {g : Block → ℤ} {i : Nat} (measures : Measures k g)
    (wellFormed : c.WellFormed i) (guarded : c.Guarded w) (outermost : c.nested = false) :
    c.given g ≤ c.effect k ∧ (c.pc = .returned → c.effect k = c.given g) := by
  have final : c.pc = .returned → c.effect k = c.given g := by
    intro returned
    rw [given, if_pos returned, effect]
    cases granted : c.granted with
    | true =>
        rw [guarded.recorded outermost granted returned]
        exact measures.granted _ _ fun kind => (wellFormed.granted kind).mp granted
    | false =>
        have notDealloc : c.request.isDealloc = false :=
          Bool.eq_false_of_not_eq_true fun kind =>
            absurd (granted.symm.trans (wellFormed.freed kind returned)) (by decide)
        have null : c.ptr = 0 := by
          by_contra nonnull
          exact absurd (granted.symm.trans ((wellFormed.granted notDealloc).mpr nonnull)) (by decide)
        rw [(wellFormed.progress.of_denied granted).1, null]
        cases request : c.request with
        | dealloc block => rw [request] at notDealloc; cases notDealloc
        | _ => simp [Request.produced, Request.consumed]
  refine ⟨?_, final⟩
  by_cases returned : c.pc = .returned
  · exact (final returned).ge
  · have inHand := measures.inHand c.request c.updates wellFormed.progress.sofar
    rw [given, if_neg returned, effect]
    omega

/-! ## The blocks of the tracked calls -/

/-- The block that a tracked call has returned. -/
def AllocCall.made (c : AllocCall) : Multiset Block :=
  if c.nested = false ∧ c.pc = .returned then c.request.produced c.ptr else 0

/-- The block that a tracked call was made for. -/
def AllocCall.taken (c : AllocCall) : Multiset Block :=
  if c.nested then 0 else c.request.consumed

/-- The blocks that tracked calls have made and no tracked call has taken. -/
def AllocState.live (s : AllocState) : Multiset Block :=
  (s.procs.map AllocCall.made).sum - (s.procs.map AllocCall.taken).sum

/-- A call is made inside the tracking path of another, or on a thread that has no
call in progress and for a block that is alive; it does not ask for zero bytes. -/
def Tracked (s : AllocState) : Move (Nat × Request) Answer → Prop
  | .start (t, request) => (request.isDealloc = true ∨ request.size ≠ 0) ∧
      ((s.shared.stack t = [] ∧ (request.consumed : Multiset Block) ≤ s.live) ∨
        ∃ c ∈ s.procs, c.thread = t ∧ c.holdsGuard = true)
  | .act _ _ => True

instance (s : AllocState) : ∀ m, Decidable (Tracked s m)
  | .start (t, request) => inferInstanceAs (Decidable
      ((request.isDealloc = true ∨ request.size ≠ 0) ∧
        ((s.shared.stack t = [] ∧ (request.consumed : Multiset Block) ≤ s.live) ∨
          ∃ c ∈ s.procs, c.thread = t ∧ c.holdsGuard = true)))
  | .act _ _ => .isTrue trivial

theorem Tracked.nesting {m : Move (Nat × Request) Answer} (cond : Tracked s m) : Nesting s m := by
  cases m with
  | start arg => exact cond.2.imp_left And.left
  | act i a => trivial

/-- What the blocks weigh that a call has made, less those it has taken. -/
def AllocCall.owned (g : Block → ℤ) (c : AllocCall) : ℤ :=
  (c.made.map g).sum - (c.taken.map g).sum

theorem AllocCall.owned_of_nested {g : Block → ℤ} (nested : c.nested = true) : c.owned g = 0 := by
  simp only [owned, made, taken, nested, Bool.true_eq_false, false_and, if_false, if_true,
    Multiset.map_zero, Multiset.sum_zero, sub_zero]

theorem AllocCall.owned_of_outermost {g : Block → ℤ} (outermost : c.nested = false) :
    c.owned g = c.given g := by
  simp only [owned, made, taken, given, outermost, true_and, Bool.false_eq_true, if_false]
  split
  · rfl
  · rfl

/-- A call has not taken more from the counter than from the blocks, and in the end
the same. -/
theorem AllocCall.owned_le {k : Counter} {g : Block → ℤ} {i : Nat} (measures : Measures k g)
    (wellFormed : c.WellFormed i) (guarded : c.Guarded w) :
    c.owned g ≤ c.effect k ∧ (c.pc = .returned → c.effect k = c.owned g) := by
  cases nested : c.nested with
  | true =>
      have none : c.effect k = 0 := by
        rw [effect, (guarded.nested_idle nested).1, List.map_nil, List.sum_nil]
      rw [owned_of_nested nested, none]
      exact ⟨le_refl 0, fun _ => rfl⟩
  | false =>
      rw [owned_of_outermost nested]
      exact pending measures wellFormed guarded nested

/-- A step makes a block where the call returns, and takes none. -/
theorem AllocCall.Trans.blocks (trans : AllocCall.Trans backtraces st w c w' c') :
    c.made = 0 ∧ c'.taken = c.taken := by
  obtain ⟨_, _, request, nested⟩ := trans.kept
  refine ⟨if_neg fun gone => trans.running gone.2, ?_⟩
  rw [taken, taken, request, nested]

/-! ## Every state -/

section Tracked

variable (run : (allocProgram backtraces st).Exec Tracked AllocState.initial moves s)

include run

/-- No more is taken than is made. -/
theorem taken_le_made : (s.procs.map AllocCall.taken).sum ≤ (s.procs.map AllocCall.made).sum := by
  refine Exec.snocInduction (motive := fun _ (s : AllocState) =>
    (s.procs.map AllocCall.taken).sum ≤ (s.procs.map AllocCall.made).sum) (le_refl 0) ?_ run
  intro ms s m s' run cond stepped ih
  cases m with
  | start arg =>
      obtain ⟨v, c, started, rfl⟩ := step_start stepped
      obtain ⟨rfl, rfl⟩ := allocProgram_start started
      have fresh : (AllocCall.init s.shared s.procs.length arg.1 arg.2).made = 0 :=
        if_neg fun gone => by cases gone.2
      simp only [List.map_append, List.map_cons, List.map_nil, List.sum_append, List.sum_cons,
        List.sum_nil, fresh, add_zero]
      rw [AllocCall.taken]
      split
      case isTrue nested => rwa [add_zero]
      case isFalse outermost =>
          rcases cond.2 with ⟨_, alive⟩ | ⟨d, inProcs, thread, held⟩
          · exact add_le_of_le_tsub_left_of_le ih alive
          · obtain ⟨j, at_j⟩ := mem_procs_iff.mp inProcs
            have guarded := (guarded_of_exec (run.mono fun _ _ => Tracked.nesting)).2 j d at_j
            have bottom := (guarded.placed.set held).2.2
            rw [thread] at bottom
            refine absurd ?_ outermost
            simp only [AllocCall.init, Bool.not_eq_true', List.isEmpty_eq_false_iff]
            exact List.ne_nil_of_mem (List.mem_of_getLast? bottom)
  | act i a =>
      obtain ⟨c, v, c', at_i, acted, rfl⟩ := step_act stepped
      obtain ⟨made, taken⟩ := (allocProgram_act acted).2.blocks
      have takenSum := sum_set_add AllocCall.taken c' at_i
      have madeSum := sum_set_add AllocCall.made c' at_i
      rw [taken] at takenSum
      rw [made, add_zero] at madeSum
      rw [add_right_cancel takenSum, madeSum]
      exact ih.trans (Multiset.le_add_right _ _)

omit run in
theorem sum_map_sum (g : Block → ℤ) (ms : List (Multiset Block)) :
    (ms.sum.map g).sum = (ms.map fun m => (m.map g).sum).sum := by
  induction ms with
  | nil => rfl
  | cons m ms ih =>
      rw [List.sum_cons, Multiset.map_add, Multiset.sum_add, ih, List.map_cons, List.sum_cons]

/-- The blocks alive are what the calls own. -/
theorem live_account (g : Block → ℤ) :
    (s.live.map g).sum = (s.procs.map (AllocCall.owned g)).sum := by
  have whole := congrArg (fun m => (m.map g).sum) (tsub_add_cancel_of_le (taken_le_made run))
  simp only [Multiset.map_add, Multiset.sum_add, sum_map_sum, List.map_map] at whole
  have apart : (s.procs.map (AllocCall.owned g)).sum +
      (s.procs.map fun c => (c.taken.map g).sum).sum =
        (s.procs.map fun c => (c.made.map g).sum).sum := by
    rw [← List.sum_map_add]
    simp only [AllocCall.owned, sub_add_cancel]
  exact add_right_cancel (whole.trans apart.symm)

/-- No tracked call asks for zero bytes. -/
theorem sized_of_tracked :
    ∀ c ∈ s.procs, c.request.isDealloc = true ∨ c.request.size ≠ 0 :=
  started_of_exec (K := fun request _ => request.isDealloc = true ∨ request.size ≠ 0)
    (fun cond => cond.1) run

theorem wellFormed_guarded : ∀ c ∈ s.procs, ∃ i, c.WellFormed i ∧ c.Guarded s.shared := by
  intro c inProcs
  obtain ⟨i, at_i⟩ := mem_procs_iff.mp inProcs
  exact ⟨i, (numbered_of_exec run).wellFormed i c at_i,
    (guarded_of_exec (run.mono fun _ _ => Tracked.nesting)).2 i c at_i⟩

/-- The blocks alive weigh no more than the counter says, and with no call in
progress the same. -/
theorem live_le_exact {k : Counter} {g : Block → ℤ} (measures : Measures k g) :
    (s.live.map g).sum ≤ s.exact k ∧ (s.Quiescent → s.exact k = (s.live.map g).sum) := by
  have each : ∀ c ∈ s.procs, c.owned g ≤ c.effect k ∧ (c.pc = .returned → c.effect k = c.owned g) := by
    intro c inProcs
    obtain ⟨i, wellFormed, guarded⟩ := wellFormed_guarded run c inProcs
    exact AllocCall.owned_le measures wellFormed guarded
  rw [live_account run g]
  refine ⟨List.sum_le_sum fun c inProcs => (each c inProcs).1, fun quiescent => ?_⟩
  exact congrArg List.sum
    (List.map_congr_left fun c inProcs => (each c inProcs).2 (quiescent c inProcs))

theorem exact_nonneg {k : Counter} {g : Block → ℤ} (measures : Measures k g) : 0 ≤ s.exact k := by
  refine le_trans ?_ (live_le_exact run measures).1
  refine Multiset.sum_nonneg fun n inMap => ?_
  obtain ⟨b, _, rfl⟩ := Multiset.mem_map.mp inMap
  exact measures.nonneg b

theorem exact_le_exact {k k' : Counter}
    (le : ∀ {request : Request} {done : List Update}, request.Bounds done →
      (done.map (Update.change k)).sum ≤ (done.map (Update.change k')).sum) :
    s.exact k ≤ s.exact k' := by
  refine List.sum_le_sum fun c inProcs => ?_
  obtain ⟨i, wellFormed, _⟩ := wellFormed_guarded run c inProcs
  exact le (Request.bounds wellFormed.progress.sofar)

theorem exact_le_granted {k : Counter}
    (le : ∀ {request : Request} {done : List Update}, request.Bounds done →
      (request.isDealloc = true ∨ request.size ≠ 0) →
      (done.map (Update.change k)).sum ≤ request.size.toNat) :
    s.exact k ≤ s.grantedBytes := by
  have each : ∀ c ∈ s.procs, c.effect k ≤ (if c.allocated then c.request.size.toNat else 0 : ℕ) := by
    intro c inProcs
    obtain ⟨i, wellFormed, _⟩ := wellFormed_guarded run c inProcs
    have bound := le (Request.bounds wellFormed.progress.sofar) (sized_of_tracked run c inProcs)
    cases granted : c.granted with
    | true =>
        refine bound.trans (le_of_eq ?_)
        cases kind : c.request.isDealloc with
        | true => simp [AllocCall.allocated, kind, Request.size_of_dealloc kind]
        | false => simp [AllocCall.allocated, granted, kind]
    | false =>
        rw [AllocCall.effect, (wellFormed.progress.of_denied granted).1]
        exact Int.natCast_nonneg _
  rw [AllocState.grantedBytes, ← sum_map_ite, Nat.cast_list_sum, List.map_map]
  exact List.sum_le_sum each

/-- **No counter wraps**: in every state each holds the plain sum of its updates. -/
theorem toNat_counter (bounded : s.grantedBytes < 2 ^ 64) {k : Counter} (notPeak : k.isPeak = false) :
    ((s.shared.counters k).toNat : ℤ) = s.exact k := by
  have current := exact_le_exact run Request.Bounds.current_le
  have live := exact_le_exact run Request.Bounds.live_le
  have total := exact_le_granted run fun bounds _ => bounds.total_le
  have count := exact_le_granted run fun bounds sized => bounds.count_le_size sized
  have bytes_nonneg := exact_nonneg run measures_currentBytes
  have count_nonneg := exact_nonneg run measures_liveCount
  rw [counters_account notPeak run, toNat_intCast]
  have inRange : 0 ≤ s.exact k ∧ s.exact k < 2 ^ 64 := by
    cases k with
    | peakBytes | peakLiveCount => cases notPeak
    | _ => omega
  exact (Int.toNat_of_nonneg (Int.emod_nonneg _ (by decide))).trans (Int.emod_eq_of_lt inRange.1 inRange.2)

end Tracked

end ModAlloc
