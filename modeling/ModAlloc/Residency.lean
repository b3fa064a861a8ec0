import ModAlloc.Peaks

/-!
# The peaks and the blocks held from `System`

A block is held from the moment `System` returns it until `System.dealloc` is called
on it. What is held is what the counters say and what the calls in progress have yet
to add to them, less what they have yet to take from them (`held_account`). `dealloc`
and a shrinking `realloc` go to `System` first and take the bytes off afterwards: in
between, another call can add to bytes that are not held any more, and the peak is
then higher than all that was ever held (`peak_above_held`). In runs without this the
peaks stay below what was held (`peaks_le_held`).
-/

namespace ModAlloc

open Interleaving Interleaving.Program

variable {backtraces : Bool} {st : Statics} {w w' : AllocWorld} {c c' : AllocCall}
  {moves : List (Move (Nat × Request) Answer)} {s s' : AllocState}

/-! ## The blocks held -/

/-- The block that a call in progress has from `System`. -/
def AllocCall.holding (c : AllocCall) : List Block :=
  match c.pc with
  | .system => c.request.consumed
  | .returned => []
  | _ => c.request.produced c.ptr

/-- The blocks held from `System`. -/
def AllocState.held (s : AllocState) : List Block :=
  s.shared.idle ++ s.procs.flatMap AllocCall.holding

def AllocState.heldBytes (s : AllocState) : Nat := (s.held.map fun b => b.size.toNat).sum

/-! ## The updates to come -/

/-- The updates that a call has yet to make for what `System` did. -/
def AllocCall.due (c : AllocCall) : List Update :=
  match c.pc with
  | .enter => c.request.updates
  | .update u rest _ => u :: rest
  | _ => []

/-- What an update adds to a counter. -/
def Update.added (k : Counter) : Update → Nat
  | .fetchAdd c n => if c = k then n.toNat else 0
  | _ => 0

/-- What an update takes from a counter. -/
def Update.removed (k : Counter) : Update → Nat
  | .fetchSub c n => if c = k then n.toNat else 0
  | _ => 0

theorem Update.change_eq (k : Counter) (u : Update) : u.change k = u.added k - u.removed k := by
  cases u with
  | fetchAdd c n =>
      simp only [change, added, removed]
      split <;> simp
  | fetchSub c n =>
      simp only [change, added, removed]
      split <;> simp
  | fetchMax c n => simp [change, added, removed]

/-- What a call has been granted and not yet added to a counter. -/
def AllocCall.uncounted (k : Counter) (c : AllocCall) : Nat := (c.due.map (Update.added k)).sum

/-- What a call has given back and not yet taken from a counter. -/
def AllocCall.overcounted (k : Counter) (c : AllocCall) : Nat := (c.due.map (Update.removed k)).sum

theorem AllocCall.sum_due (k : Counter) (c : AllocCall) :
    (c.due.map (Update.change k)).sum = c.uncounted k - c.overcounted k := by
  rw [uncounted, overcounted]
  induction c.due with
  | nil => rfl
  | cons u us ih =>
      simp only [List.map_cons, List.sum_cons, ih, Update.change_eq, Nat.cast_add]
      ring

/-- The next step of the call adds to the counter. -/
def AllocCall.adds (k : Counter) (c : AllocCall) : Bool :=
  match c.pc with
  | .update (.fetchAdd k' _) _ _ => k' = k
  | _ => false

/-- When a call adds to the counter, what the others have given back and not yet taken
from it is no more than what they have been granted and not yet added. -/
def InStep (k : Counter) (s : AllocState) : Move (Nat × Request) Answer → Prop
  | .start _ => True
  | .act i _ => (s.procs[i]?).any (AllocCall.adds k) = true →
      ((s.procs.eraseIdx i).map (AllocCall.overcounted k)).sum ≤
        ((s.procs.eraseIdx i).map (AllocCall.uncounted k)).sum

instance (k : Counter) (s : AllocState) : ∀ m, Decidable (InStep k s m)
  | .start _ => .isTrue trivial
  | .act i _ => inferInstanceAs (Decidable ((s.procs[i]?).any (AllocCall.adds k) = true →
      ((s.procs.eraseIdx i).map (AllocCall.overcounted k)).sum ≤
        ((s.procs.eraseIdx i).map (AllocCall.uncounted k)).sum))

/-! ## One call -/

/-- Between `System` and the return, what is done and what is due make up the request. -/
theorem AllocCall.Progress.due (progress : c.Progress) (called : c.pc ≠ .system)
    (running : c.pc ≠ .returned) : c.granted = true ∧ c.updates ++ c.due = c.request.updates := by
  unfold Progress at progress
  unfold AllocCall.due
  split at progress
  case h_1 pc => exact absurd pc called
  case h_2 pc =>
      rw [pc, progress.2.1]
      exact ⟨progress.1, List.nil_append _⟩
  case h_3 u rest old pc =>
      rw [pc]
      exact ⟨progress.1, progress.2.1⟩
  case h_9 pc => exact absurd pc running
  all_goals
    rename_i pc
    rw [pc]
    exact ⟨progress.1, (List.append_nil _).trans progress.2.1⟩

/-- What a call has added and has yet to add is what it holds and has given. -/
theorem AllocCall.effect_add_due {k : Counter} {g : Block → ℤ} {i : Nat} (measures : Measures k g)
    (wellFormed : c.WellFormed i) (guarded : c.Guarded w) (outermost : c.nested = false) :
    c.effect k + (c.due.map (Update.change k)).sum = (c.holding.map g).sum + c.given g := by
  by_cases returned : c.pc = .returned
  · rw [(pending measures wellFormed guarded outermost).2 returned, AllocCall.due, holding, returned]
    exact Int.add_comm ..
  · rw [given, if_neg returned]
    by_cases waiting : c.pc = .system
    · have progress := wellFormed.progress
      simp only [Progress, waiting] at progress
      rw [effect, progress.2.1, AllocCall.due, holding, waiting]
      simp
    · obtain ⟨granted, sofar⟩ := wellFormed.progress.due waiting returned
      have holds : c.holding = c.request.produced c.ptr := by
        unfold holding
        split
        · exact absurd ‹_› waiting
        · exact absurd ‹_› returned
        · rfl
      have whole := measures.granted c.request c.ptr fun kind => (wellFormed.granted kind).mp granted
      rw [Request.effect, ← sofar, List.map_append, List.sum_append] at whole
      rw [effect, whole, holds]
      ring

/-- After an addition to `k` the same call does not change `k` any more. -/
def AddsLast (k : Counter) : List Update → Prop
  | [] => True
  | u :: rest => (∀ n, u = .fetchAdd k n → ∀ v ∈ rest, v.change k = 0) ∧ AddsLast k rest

theorem AddsLast.right {k : Counter} {done us : List Update} (last : AddsLast k (done ++ us)) :
    AddsLast k us := by
  induction done with
  | nil => exact last
  | cons u done ih => exact ih last.2

theorem Request.addsLast (request : Request) :
    AddsLast .currentBytes request.updates ∧ AddsLast .liveCount request.updates := by
  cases request with
  | alloc size | allocZeroed size => simp [updates, recordAlloc, AddsLast, Update.change]
  | dealloc block => simp [updates, recordDealloc, AddsLast]
  | realloc block newSize =>
      rw [updates]
      rcases BitVec.lt_trichotomy block.size newSize with grows | same | shrinks
      · simp [recordRealloc_of_lt grows, AddsLast, Update.change]
      · simp [same, recordRealloc_self, AddsLast]
      · simp [recordRealloc_of_gt shrinks, AddsLast]

/-- The updates due after a step are those left. -/
theorem AllocCall.due_withUpdates (done us : List Update) (old : U64) :
    AllocCall.due { c with updates := done, pc := withUpdates c.request old us } = us := by
  cases us with
  | cons u us => rfl
  | nil =>
      simp only [withUpdates, AllocCall.due]
      cases c.request.isDealloc <;> rfl

/-- A value is announced by the step that adds to the counter, and nothing of the call
is due after it. -/
theorem AllocCall.Trans.adds {level peak : Counter} (peakOf : PeakOf level peak)
    (addsLast : AddsLast level c.request.updates)
    (trans : AllocCall.Trans backtraces st w c w' c') (progress : c.Progress) {v : Nat}
    (announced : c'.announced peak = some v) :
    c.adds level = true ∧ (c'.due.map (Update.change level)).sum = 0 := by
  obtain ⟨_, n, rest, old, pc, rfl⟩ := trans.announces peakOf progress announced
  refine ⟨by simp only [AllocCall.adds, pc, decide_true], ?_⟩
  simp only [Progress, pc] at progress
  rw [← progress.2.1] at addsLast
  rw [due_withUpdates]
  refine List.sum_eq_zero fun x inMap => ?_
  obtain ⟨u, inRest, rfl⟩ := List.mem_map.mp inMap
  exact addsLast.right.1 n rfl u inRest

/-! ## Every state -/

/-- **What is held** is what the counter says, with what is due. -/
theorem held_account {k : Counter} {g : Block → ℤ} (measures : Measures k g)
    (run : (allocProgram backtraces st).Exec Disciplined AllocState.initial moves s) :
    s.exact k + (s.procs.map fun c => (c.due.map (Update.change k)).sum).sum =
      (s.held.map g).sum := by
  obtain ⟨tracked, balanced⟩ := tracked_of_disciplined run
  have idle := live_account tracked g
  rw [balanced.live] at idle
  have given : s.procs.map (AllocCall.owned g) = s.procs.map (AllocCall.given g) :=
    List.map_congr_left fun c inProcs => AllocCall.owned_of_outermost (disciplined_calls run c inProcs)
  have each : ∀ c ∈ s.procs, c.effect k + (c.due.map (Update.change k)).sum =
      (c.holding.map g).sum + c.given g := by
    intro c inProcs
    obtain ⟨i, wellFormed, guarded⟩ := wellFormed_guarded tracked c inProcs
    exact AllocCall.effect_add_due measures wellFormed guarded (disciplined_calls run c inProcs)
  have holding : ((s.procs.flatMap AllocCall.holding).map g).sum =
      (s.procs.map fun c => (c.holding.map g).sum).sum := by
    induction s.procs with
    | nil => rfl
    | cons c cs ih =>
        rw [List.flatMap_cons, List.map_append, List.sum_append, ih, List.map_cons, List.sum_cons]
  have atRest : (s.shared.idle.map g).sum = (s.procs.map (AllocCall.given g)).sum := by
    rw [← given, ← idle, Multiset.map_coe, Multiset.sum_coe]
  rw [AllocState.exact, ← List.sum_map_add, List.map_congr_left each, List.sum_map_add,
    AllocState.held, List.map_append, List.sum_append, holding, atRest]
  exact Int.add_comm ..

theorem sum_eraseIdx_add {α M : Type*} [AddCommMonoid M] {l : List α} {i : Nat} {a : α} (f : α → M)
    (atIndex : l[i]? = some a) : f a + ((l.eraseIdx i).map f).sum = (l.map f).sum := by
  obtain ⟨inRange, rfl⟩ := List.getElem?_eq_some_iff.mp atIndex
  rw [← ((List.getElem_cons_eraseIdx_perm inRange).map f).sum_eq, List.map_cons, List.sum_cons]

/-- A value announced in step is no more than what is held. -/
theorem announced_le_held {level peak : Counter} {g : Block → ℤ} (peakOf : PeakOf level peak)
    (measures : Measures level g) (addsLast : ∀ request : Request, AddsLast level request.updates)
    (run : (allocProgram backtraces st).Exec Disciplined AllocState.initial moves s')
    (known : s.Level level) (known' : s'.Level level) {i : Nat} {a : Answer} {v : Nat}
    (inStep : InStep level s (.act i a))
    (stepped : (allocProgram backtraces st).step s (.act i a) = some s')
    (at_i : s.procs[i]? = some c)
    (acted : (allocProgram backtraces st).act s.shared i c a = some (s'.shared, c'))
    (announced : c'.announced peak = some v) : (v : ℤ) ≤ (s'.held.map g).sum := by
  have trans := (allocProgram_act acted).2
  have progress := (known.numbered.wellFormed i c at_i).progress
  obtain ⟨adds, settled⟩ := trans.adds peakOf (addsLast _) progress announced
  have others := inStep (by rw [at_i]; exact adds)
  have procs : s'.procs = s.procs.set i c' :=
    congrArg Pool.procs (Option.some.inj (stepped.symm.trans (step_act_eq at_i acted)))
  have at_i' : (s.procs.set i c')[i]? = some c' :=
    List.getElem?_set_self (List.getElem?_eq_some_iff.mp at_i).1
  have dues := sum_eraseIdx_add (fun c => (c.due.map (Update.change level)).sum) at_i'
  rw [settled, zero_add, List.eraseIdx_set_eq] at dues
  have parts : ((s.procs.eraseIdx i).map fun c => (c.due.map (Update.change level)).sum).sum +
      (((s.procs.eraseIdx i).map (AllocCall.overcounted level)).sum : ℕ) =
        (((s.procs.eraseIdx i).map (AllocCall.uncounted level)).sum : ℕ) := by
    rw [← sum_map_natCast, ← sum_map_natCast, ← List.sum_map_add]
    simp only [AllocCall.sum_due, sub_add_cancel]
  have account := held_account measures run
  have value := known'.exact
  have own := (trans.announces peakOf progress announced).1
  rw [procs, ← dues] at account
  omega

/-- The states of a run, with the calls that led to them. -/
structure AllocState.Reached (backtraces : Bool) (st : Statics) (level : Counter) (s : AllocState) :
    Prop where
  level : s.Level level
  run : ∃ moves, (allocProgram backtraces st).Exec Disciplined AllocState.initial moves s

theorem peak_le_held {ok : AllocState → Move (Nat × Request) Answer → Prop} {level peak : Counter}
    {g : Block → ℤ} (peakOf : PeakOf level peak) (measures : Measures level g)
    (addsLast : ∀ request : Request, AddsLast level request.updates)
    (weaker : ∀ s m, ok s m → Disciplined s m ∧ InStep level s m)
    (run : (allocProgram backtraces st).Exec ok AllocState.initial moves s)
    (bounded : s.grantedBytes < 2 ^ 64) :
    ∃ t : AllocState, Visited (allocProgram backtraces st) ok AllocState.initial moves s t ∧
      ((s.shared.counters peak).toNat : ℤ) ≤ (t.held.map g).sum := by
  have reached : ∀ t, Visited (allocProgram backtraces st) ok AllocState.initial moves s t →
      AllocState.Reached backtraces st level t := by
    intro t visited
    have fits := Nat.lt_of_le_of_lt (grantedBytes_le visited) bounded
    obtain ⟨before, after, _, left, _⟩ := visited
    have disciplined := left.mono fun s m cond => (weaker s m cond).1
    exact ⟨⟨numbered_of_exec left,
      toNat_counter (tracked_of_disciplined disciplined).1 fits peakOf.notPeak⟩, before, disciplined⟩
  have marks : HighWater (allocProgram backtraces st) (AllocState.Reached backtraces st level)
      (fun w => (w.counters level).toNat) (fun w => (w.counters peak).toNat)
      (AllocCall.announced peak) := (highWater peakOf).mono fun reached => reached.level
  refine (marks.related_of_mark (R := fun v t => (v : ℤ) ≤ ((AllocState.held t).map g).sum) run
    reached ?_ rfl ?_).1
  · exact le_refl 0
  · intro s s' i c a c' v known known' cond stepped at_i acted announced
    obtain ⟨moves, run⟩ := known'.run
    exact announced_le_held peakOf measures addsLast run known.level known'.level
      (weaker _ _ cond).2 stepped at_i acted announced

/-- The calls a program makes, with each addition in step. -/
def Timely (s : AllocState) (m : Move (Nat × Request) Answer) : Prop :=
  Disciplined s m ∧ InStep .currentBytes s m ∧ InStep .liveCount s m

instance (s : AllocState) (m : Move (Nat × Request) Answer) : Decidable (Timely s m) :=
  inferInstanceAs (Decidable (Disciplined s m ∧ InStep .currentBytes s m ∧ InStep .liveCount s m))

/-- **In step, a peak is no more than what was held**, in every state. -/
theorem peaks_le_held (run : (allocProgram backtraces st).Exec Timely AllocState.initial moves s)
    (bounded : s.grantedBytes < 2 ^ 64) :
    (∃ t : AllocState, Visited (allocProgram backtraces st) Timely AllocState.initial moves s t ∧
      (s.shared.counters .peakBytes).toNat ≤ t.heldBytes) ∧
    ∃ t : AllocState, Visited (allocProgram backtraces st) Timely AllocState.initial moves s t ∧
      (s.shared.counters .peakLiveCount).toNat ≤ t.held.length := by
  constructor
  · obtain ⟨t, visited, le⟩ := peak_le_held peakOf_bytes measures_currentBytes
      (fun request => request.addsLast.1) (fun _ _ cond => ⟨cond.1, cond.2.1⟩) run bounded
    rw [sum_map_natCast] at le
    exact ⟨t, visited, Int.ofNat_le.mp le⟩
  · obtain ⟨t, visited, le⟩ := peak_le_held peakOf_live measures_liveCount
      (fun request => request.addsLast.2) (fun _ _ cond => ⟨cond.1, cond.2.2⟩) run bounded
    rw [List.map_const', List.sum_replicate, nsmul_one] at le
    exact ⟨t, visited, Int.ofNat_le.mp le⟩

/-! A block is freed by one thread, and its memory is at once returned to another
thread: before the first thread has taken it off the counters, and after. -/

def freedMoves : List (Move (Nat × Request) Answer) :=
  .start (0, .alloc 64) :: .act 0 (.bare 0x1000) :: List.replicate 10 (.act 0 (.bare 0)) ++
    [.start (0, .dealloc ⟨0x1000, 64⟩), .act 1 (.bare 0)]

def reusedMoves : List (Move (Nat × Request) Answer) :=
  .start (1, .alloc 64) :: .act 2 (.bare 0x1000) :: List.replicate 7 (.act 2 (.bare 0))

def lateMoves : List (Move (Nat × Request) Answer) := freedMoves ++ reusedMoves

def promptMoves : List (Move (Nat × Request) Answer) :=
  freedMoves ++ List.replicate 3 (.act 1 (.bare 0)) ++ reusedMoves

def lateEnd : AllocState :=
  ((allocProgram false raceStatics).run Disciplined AllocState.initial lateMoves).get (by decide)

theorem lateRun :
    (allocProgram false raceStatics).Exec Disciplined AllocState.initial lateMoves lateEnd :=
  Exec.of_run (Option.some_get (by decide)).symm

def promptEnd : AllocState :=
  ((allocProgram false raceStatics).run Timely AllocState.initial promptMoves).get (by decide)

theorem promptRun :
    (allocProgram false raceStatics).Exec Timely AllocState.initial promptMoves promptEnd :=
  Exec.of_run (Option.some_get (by decide)).symm

theorem peaks_le_held_prompt :
    promptEnd.shared.counters .peakBytes = 64 ∧
      ∃ t : AllocState,
        Visited (allocProgram false raceStatics) Timely AllocState.initial promptMoves promptEnd t ∧
          64 ≤ t.heldBytes := by
  obtain ⟨⟨t, visited, le⟩, _⟩ := peaks_le_held promptRun (by decide)
  exact ⟨by decide, t, visited, le⟩

/-- One block of 64 bytes at most is held at any moment, and the peaks are at 128
bytes and two blocks. -/
theorem peak_above_held :
    (allocProgram false raceStatics).Exec Disciplined AllocState.initial lateMoves lateEnd ∧
      lateEnd.grantedBytes < 2 ^ 64 ∧
      (∀ t : AllocState,
        Visited (allocProgram false raceStatics) Disciplined AllocState.initial lateMoves lateEnd t →
          t.heldBytes ≤ 64 ∧ t.held.length ≤ 1) ∧
      lateEnd.shared.counters .peakBytes = 128 ∧ lateEnd.shared.counters .peakLiveCount = 2 := by
  have held : ∀ t ∈ (allocProgram false raceStatics).trail AllocState.initial lateMoves,
      AllocState.heldBytes t ≤ 64 ∧ (AllocState.held t).length ≤ 1 := by decide
  refine ⟨lateRun, by decide, fun t ⟨before, after, parts, left, right⟩ => ?_, by decide, by decide⟩
  exact held t (parts ▸ left.mem_trail right)

end ModAlloc
