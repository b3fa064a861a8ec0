import ModAlloc.Profiler
import ModAlloc.Lib.Observer

/-!
# Snapshots while the program runs

`ModAlloc::snapshot` loads the six counters one after the other, and
`current_snapshot_or_zeros` loads the handle before. So a snapshot that is taken while
calls are in progress is not the state at any one moment; each of its fields is the
value of a counter at some moment of the taking (`snapshot_sampled`). Two counters are
only ever added to, so that what they show lies between the calls that had returned and
those that had begun (`total_bounds`), for a snapshot (`heapStats_between`) and for the
window of a `Profiler` (`profiler_window`).
-/

namespace ModAlloc

open Interleaving Interleaving.Program

variable {backtraces : Bool} {st : Statics} {w w' : AllocWorld} {c c' : AllocCall}
  {moves moves' : List (Move (Nat × Request) Answer)} {s s' s₀ s₁ : AllocState}
  {ok : AllocState → Move (Nat × Request) Answer → Prop} {k : Counter}

/-! ## Taking a snapshot -/

/-- The next atomic step of `current_snapshot_or_zeros`. -/
inductive SnapshotPc where
  /-- `GLOBAL_HANDLE.load` -/
  | loadHandle
  | load (k : Counter)
  | returned
deriving DecidableEq, Repr

/-- After the load of a field; the fields are loaded in the order of `snapshot`. -/
def SnapshotPc.next : Counter → SnapshotPc
  | .allocCount => .load .totalBytes
  | .totalBytes => .load .peakBytes
  | .peakBytes => .load .currentBytes
  | .currentBytes => .load .liveCount
  | .liveCount => .load .peakLiveCount
  | .peakLiveCount => .returned

/-- A snapshot in progress, with the values loaded so far and zeros for the others. -/
structure SnapshotCall where
  seen : Counters
  pc : SnapshotPc

namespace SnapshotCall

/-- Entry of `current_snapshot_or_zeros`. -/
def init : SnapshotCall := ⟨Counters.new, .loadHandle⟩

/-- Entry of `ModAlloc::snapshot`. -/
def direct : SnapshotCall := ⟨Counters.new, .load .allocCount⟩

/-- One atomic step; without a handle the snapshot is all zeros. -/
def step (w : AllocWorld) (r : SnapshotCall) : Option SnapshotCall :=
  match r.pc with
  | .loadHandle => some { r with pc := if w.handle then .load .allocCount else .returned }
  | .load k => some ⟨Function.update r.seen k (w.counters k), .next k⟩
  | .returned => none

/-- The value returned. -/
def stats (r : SnapshotCall) : AllocStats where
  allocCount := r.seen .allocCount
  totalBytes := r.seen .totalBytes
  peakBytes := r.seen .peakBytes
  currentBytes := r.seen .currentBytes
  liveCount := r.seen .liveCount
  peakLiveCount := r.seen .peakLiveCount

end SnapshotCall

/-- `HeapStats`, on a target where `usize` has `n` bits. -/
structure HeapStats (n : Nat) where
  totalBlocks : U64
  totalBytes : U64
  currBlocks : BitVec n
  currBytes : BitVec n
  maxBlocks : BitVec n
  maxBytes : BitVec n
deriving DecidableEq, Repr

/-- `HeapStats::get` from its snapshot; `as usize` keeps the low bits. -/
def HeapStats.get (n : Nat) (snap : AllocStats) : HeapStats n where
  totalBlocks := snap.allocCount
  totalBytes := snap.totalBytes
  currBlocks := snap.liveCount.setWidth n
  currBytes := snap.currentBytes.setWidth n
  maxBlocks := snap.peakLiveCount.setWidth n
  maxBytes := snap.peakBytes.setWidth n

/-- The counters that have been loaded. -/
def SnapshotPc.loaded : SnapshotPc → List Counter
  | .loadHandle | .load .allocCount => []
  | .load .totalBytes => [.allocCount]
  | .load .peakBytes => [.allocCount, .totalBytes]
  | .load .currentBytes => [.allocCount, .totalBytes, .peakBytes]
  | .load .liveCount => [.allocCount, .totalBytes, .peakBytes, .currentBytes]
  | .load .peakLiveCount => [.allocCount, .totalBytes, .peakBytes, .currentBytes, .liveCount]
  | .returned => [.allocCount, .totalBytes, .peakBytes, .currentBytes, .liveCount, .peakLiveCount]

theorem SnapshotPc.loaded_next (k : Counter) : (next k).loaded = (load k).loaded ++ [k] := by
  cases k <;> rfl

theorem SnapshotPc.mem_loaded_returned (k : Counter) : k ∈ returned.loaded := by
  cases k <;> decide

/-- What a snapshot that was begun at `r₀` knows, of the states that it has been taken
in: there was no handle, or what it has loaded was there, and the handle if it has
loaded that. -/
structure SnapshotCall.Known (r₀ : SnapshotCall) (V : AllocState → Prop) (r : SnapshotCall) : Prop where
  entry : r.pc = .loadHandle → r.seen = Counters.new
  sampled : (r.pc = .returned ∧ r.seen = Counters.new ∧ ∃ t : AllocState, V t ∧ t.shared.handle = false) ∨
    ((r₀ = .init → r.pc ≠ .loadHandle → ∃ t : AllocState, V t ∧ t.shared.handle = true) ∧
      ∀ k ∈ r.pc.loaded, ∃ t : AllocState, V t ∧ r.seen k = t.shared.counters k)

theorem SnapshotCall.Known.mono {V V' : AllocState → Prop} {r₀ r : SnapshotCall}
    (more : ∀ t, V t → V' t) (known : Known r₀ V r) : Known r₀ V' r where
  entry := known.entry
  sampled := by
    rcases known.sampled with ⟨pc, zeros, t, visited, null⟩ | ⟨handled, loaded⟩
    · exact .inl ⟨pc, zeros, t, more t visited, null⟩
    · refine .inr ⟨fun via begun => ?_, fun k isLoaded => ?_⟩
      · obtain ⟨t, visited, set⟩ := handled via begun
        exact ⟨t, more t visited, set⟩
      · obtain ⟨t, visited, value⟩ := loaded k isLoaded
        exact ⟨t, more t visited, value⟩

theorem SnapshotCall.Known.read {V : AllocState → Prop} {r₀ r r' : SnapshotCall} {t : AllocState}
    (visited : V t) (known : Known r₀ V r) (reading : r.step t.shared = some r') : Known r₀ V r' := by
  unfold step at reading
  split at reading
  case h_1 pc =>
      cases reading
      cases set : t.shared.handle with
      | true => exact ⟨fun pc => (by cases pc), .inr ⟨fun _ _ => ⟨t, visited, set⟩, fun k none => (by cases none)⟩⟩
      | false => exact ⟨fun pc => (by cases pc), .inl ⟨rfl, known.entry pc, t, visited, set⟩⟩
  case h_2 k pc =>
      cases reading
      rcases known.sampled with ⟨returned, _⟩ | ⟨handled, loaded⟩
      · cases pc.symm.trans returned
      · refine ⟨fun pc => (by cases k <;> cases pc), .inr ⟨fun via _ => ?_, fun k' isLoaded => ?_⟩⟩
        · exact handled via (pc ▸ SnapshotPc.noConfusion)
        · by_cases here : k' = k
          · subst here
            exact ⟨t, visited, Function.update_self ..⟩
          · rw [SnapshotPc.loaded_next, List.mem_append] at isLoaded
            obtain ⟨t', visited', value⟩ :=
              loaded k' (pc ▸ isLoaded.resolve_right fun other => here (List.mem_singleton.mp other))
            exact ⟨t', visited', (Function.update_of_ne here ..).trans value⟩
  case h_3 => cases reading

/-- **Each field was loaded in a state on the way**, or there was no handle in one. -/
theorem snapshot_sampled {r₀ r : SnapshotCall} (entry : r₀ = .init ∨ r₀ = .direct)
    (obs : Observes (allocProgram backtraces st) ok SnapshotCall.step s₀ r₀ moves s r)
    (returned : r.pc = .returned) :
    (r.seen = Counters.new ∧ ∃ t : AllocState,
      Visited (allocProgram backtraces st) ok s₀ moves s t ∧ t.shared.handle = false) ∨
    (r₀ = .init → ∃ t : AllocState,
      Visited (allocProgram backtraces st) ok s₀ moves s t ∧ t.shared.handle = true) ∧
    ∀ k, ∃ t : AllocState, Visited (allocProgram backtraces st) ok s₀ moves s t ∧
      r.seen k = t.shared.counters k := by
  have known := obs.invariant (I := SnapshotCall.Known r₀) (fun more known => known.mono more)
    (fun visited known reading => known.read visited reading) fun V => by
      rcases entry with rfl | rfl
      · exact ⟨fun _ => rfl, .inr ⟨fun _ begun => absurd rfl begun, fun k none => (by cases none)⟩⟩
      · exact ⟨fun _ => rfl, .inr ⟨fun via => (by cases congrArg SnapshotCall.pc via),
          fun k none => (by cases none)⟩⟩
  rcases known.sampled with ⟨_, zeros, null⟩ | ⟨handled, loaded⟩
  · exact .inl ⟨zeros, null⟩
  · refine .inr ⟨fun via => handled via ?_, fun k => ?_⟩
    · rw [returned]
      exact SnapshotPc.noConfusion
    · exact loaded k (returned ▸ SnapshotPc.mem_loaded_returned k)

/-! ## Totals -/

/-- The counters that are only added to. -/
def Counter.isTotal : Counter → Bool
  | .allocCount | .totalBytes => true
  | _ => false

theorem Counter.notPeak_of_isTotal (total : k.isTotal = true) : k.isPeak = false := by
  cases k <;> first | rfl | cases total

/-- What a call adds to a total. -/
def Request.gain (k : Counter) (request : Request) : Nat :=
  match k with
  | .allocCount => if request.isDealloc then 0 else 1
  | .totalBytes => request.growth
  | _ => 0

theorem Request.effect_eq_gain (total : k.isTotal = true) (request : Request) :
    request.effect k = request.gain k := by
  cases k with
  | allocCount =>
      rw [effect_allocCount, gain]
      split <;> rfl
  | totalBytes =>
      have whole := request.effect_totalBytes
      have parts := request.growth_add_overlap
      show request.effect .totalBytes = (request.growth : ℤ)
      omega
  | _ => cases total

theorem Request.change_nonneg (total : k.isTotal = true) (request : Request) :
    ∀ u ∈ request.updates, 0 ≤ u.change k := by
  have adds : ∀ {u : Update}, (∀ c n, u = .fetchSub c n → c.isTotal = false) → 0 ≤ u.change k := by
    intro u keeps
    cases u with
    | fetchAdd c n =>
        rw [Update.change]
        split
        · exact Int.natCast_nonneg _
        · exact le_rfl
    | fetchMax c n => exact le_rfl
    | fetchSub c n =>
        have other : c ≠ k := by
          rintro rfl
          exact absurd ((keeps c n rfl).symm.trans total) (by decide)
        rw [Update.change, if_neg other]
  intro u inUpdates
  refine adds fun c n isSub => ?_
  subst isSub
  cases request with
  | alloc size | allocZeroed size => simp [updates, recordAlloc] at inUpdates
  | dealloc block =>
      simp only [updates, recordDealloc, List.mem_cons, Update.fetchSub.injEq, List.not_mem_nil,
        or_false] at inUpdates
      rcases inUpdates with ⟨rfl, _⟩ | ⟨rfl, _⟩ <;> rfl
  | realloc block newSize =>
      rw [updates] at inUpdates
      rcases BitVec.lt_trichotomy block.size newSize with grows | same | shrinks
      · simp [recordRealloc_of_lt grows] at inUpdates
      · simp [same, recordRealloc_self] at inUpdates
      · simp only [recordRealloc_of_gt shrinks, List.mem_cons, reduceCtorEq, Update.fetchSub.injEq,
          List.not_mem_nil, or_false, false_or] at inUpdates
        rw [inUpdates.1]
        rfl

/-- What a call has added so far to a total is no more than it will have added. -/
theorem AllocCall.Progress.effect_le (progress : c.Progress) (total : k.isTotal = true) :
    0 ≤ c.effect k ∧ c.effect k ≤ c.request.gain k := by
  have nonneg := c.request.change_nonneg total
  obtain ⟨rest, whole⟩ := progress.sofar
  have apart : c.effect k + (rest.map (Update.change k)).sum = c.request.gain k := by
    rw [← Request.effect_eq_gain total, Request.effect, ← whole, List.map_append, List.sum_append,
      AllocCall.effect]
  have done : 0 ≤ c.effect k := List.sum_nonneg fun x inMap => by
    obtain ⟨u, inDone, rfl⟩ := List.mem_map.mp inMap
    exact nonneg u (whole ▸ List.mem_append_left _ inDone)
  have left : 0 ≤ (rest.map (Update.change k)).sum := List.sum_nonneg fun x inMap => by
    obtain ⟨u, inRest, rfl⟩ := List.mem_map.mp inMap
    exact nonneg u (whole ▸ List.mem_append_right _ inRest)
  exact ⟨done, by omega⟩

theorem AllocCall.Trans.effect_le (trans : AllocCall.Trans backtraces st w c w' c')
    (progress : c.Progress) (total : k.isTotal = true) : c.effect k ≤ c'.effect k := by
  rcases trans.logs with ⟨same, _⟩ | ⟨u, old, longer, _⟩
  · rw [AllocCall.effect, AllocCall.effect, same]
  · have sofar := (trans.progress progress).sofar
    have inUpdates : u ∈ c.request.updates := by
      rw [← trans.kept.2.2.1]
      exact sofar.subset (longer ▸ List.mem_append_right _ (List.mem_singleton_self u))
    have added := c.request.change_nonneg total u inUpdates
    rw [AllocCall.effect, AllocCall.effect, longer, List.map_append, List.sum_append, List.map_cons,
      List.map_nil, List.sum_cons, List.sum_nil, add_zero]
    exact le_add_of_nonneg_right added

/-- What a call has added to a total: nothing unless it is counted, and all of it when it
has returned. -/
theorem AllocCall.effect_counted {i : Nat} (wellFormed : c.WellFormed i) (guarded : c.Guarded w)
    (total : k.isTotal = true) :
    c.effect k ≤ (if c.counted then c.request.gain k else 0 : ℕ) ∧
      (c.pc = .returned → c.effect k = (if c.counted then c.request.gain k else 0 : ℕ)) := by
  have bounds := wellFormed.progress.effect_le total
  have dealloc : c.request.isDealloc = true → c.request.gain k = 0 := by
    intro kind
    have zero : c.request.effect k = 0 := by
      cases k with
      | allocCount => rw [Request.effect_allocCount, if_pos kind]
      | totalBytes => exact Request.effect_totalBytes_of_dealloc kind
      | _ => cases total
    rw [Request.effect_eq_gain total] at zero
    exact_mod_cast zero
  by_cases counted : c.counted = true
  · rw [if_pos counted]
    refine ⟨bounds.2, fun returned => ?_⟩
    simp only [AllocCall.counted, AllocCall.allocated, Bool.and_eq_true,
      Bool.not_eq_true'] at counted
    rw [AllocCall.effect_returned wellFormed guarded returned, if_pos ⟨counted.1, counted.2.1⟩,
      Request.effect_eq_gain total]
  · rw [if_neg counted]
    have none : c.effect k = 0 := by
      cases nested : c.nested with
      | true => rw [AllocCall.effect, (guarded.nested_idle nested).1]; rfl
      | false =>
          cases granted : c.granted with
          | false => rw [AllocCall.effect, (wellFormed.progress.of_denied granted).1]; rfl
          | true =>
              cases kind : c.request.isDealloc with
              | true =>
                  rw [dealloc kind] at bounds
                  omega
              | false => simp [AllocCall.counted, AllocCall.allocated, nested, granted, kind] at counted
    exact ⟨none.le, fun _ => none⟩

/-! ## Every state -/

/-- The tracked allocations that have returned. -/
def AllocState.recorded (s : AllocState) : List AllocCall :=
  s.counted.filter fun c => c.pc = .returned

/-- What calls add to a total. -/
def gains (k : Counter) (cs : List AllocCall) : Nat := (cs.map fun c => c.request.gain k).sum

theorem gains_allocCount {cs : List AllocCall} (counted : ∀ c ∈ cs, c.counted = true) :
    gains .allocCount cs = cs.length := by
  rw [gains, List.map_congr_left (g := fun _ => 1), List.map_const', List.sum_replicate_nat,
    Nat.mul_one]
  intro c inList
  have := counted c inList
  simp only [AllocCall.counted, AllocCall.allocated, Bool.and_eq_true, Bool.not_eq_true'] at this
  rw [Request.gain, this.2.2]
  rfl

theorem AllocState.counted_of_mem (s : AllocState) : ∀ c ∈ s.counted, c.counted = true :=
  fun _ inCounted => (List.mem_filter.mp inCounted).2

theorem AllocState.counted_of_recorded (s : AllocState) : ∀ c ∈ s.recorded, c.counted = true :=
  fun c inRecorded => s.counted_of_mem c (List.mem_filter.mp inRecorded).1

/-- **A total lies between the calls that have returned and those that have begun.** -/
theorem exact_bounds (run : (allocProgram backtraces st).Exec Tracked AllocState.initial moves s)
    (total : k.isTotal = true) : gains k s.recorded ≤ s.exact k ∧ s.exact k ≤ gains k s.counted := by
  have each : ∀ c ∈ s.procs, 0 ≤ c.effect k ∧
      c.effect k ≤ (if c.counted then c.request.gain k else 0 : ℕ) ∧
      (c.pc = .returned → c.effect k = (if c.counted then c.request.gain k else 0 : ℕ)) := by
    intro c inProcs
    obtain ⟨i, wellFormed, guarded⟩ := wellFormed_guarded run c inProcs
    exact ⟨(wellFormed.progress.effect_le total).1,
      AllocCall.effect_counted wellFormed guarded total⟩
  refine ⟨?_, ?_⟩
  · rw [gains, AllocState.recorded, AllocState.counted, List.filter_filter, ← sum_map_ite,
      Nat.cast_list_sum, List.map_map]
    refine List.sum_le_sum fun c inProcs => ?_
    obtain ⟨nonneg, _, exact⟩ := each c inProcs
    simp only [Function.comp_apply, Bool.and_eq_true, decide_eq_true_eq]
    split
    · rename_i both
      rw [exact both.1, if_pos both.2]
    · exact nonneg
  · rw [gains, AllocState.counted, ← sum_map_ite, Nat.cast_list_sum, List.map_map]
    exact List.sum_le_sum fun c inProcs => (each c inProcs).2.1

/-- A call adds to a total as the run goes on. -/
theorem effect_le_of_exec (before : (allocProgram backtraces st).Exec ok AllocState.initial moves s)
    (rest : (allocProgram backtraces st).Exec ok s moves' s') (total : k.isTotal = true) {i : Nat}
    (at_i : s.procs[i]? = some c) (at_i' : s'.procs[i]? = some c') : c.effect k ≤ c'.effect k := by
  have progress := ((numbered_of_exec before).wellFormed i c at_i).progress
  refine (Exec.own (I := fun d : AllocCall => d.Progress ∧ c.effect k ≤ d.effect k) ?_ rest at_i at_i'
    ⟨progress, le_rfl⟩).2
  intro w i d a w' d' acted ⟨progress, le⟩
  have trans := (allocProgram_act acted).2
  exact ⟨trans.progress progress, le.trans (trans.effect_le progress total)⟩

/-- A sum whose terms have grown, with terms behind them. -/
theorem sum_map_le_take {l l' : List AllocCall} {f : AllocCall → ℤ} (longer : l.length ≤ l'.length)
    (le : ∀ (i : Nat) (a b : AllocCall), l[i]? = some a → l'[i]? = some b → f a ≤ f b) :
    (l.map f).sum ≤ ((l'.take l.length).map f).sum := by
  induction l generalizing l' with
  | nil => exact le_rfl
  | cons a l ih =>
      cases l' with
      | nil => cases longer
      | cons b l' =>
          rw [List.length_cons, List.take_succ_cons, List.map_cons, List.map_cons, List.sum_cons,
            List.sum_cons]
          exact add_le_add (le 0 a b rfl rfl)
            (ih (Nat.le_of_succ_le_succ longer) fun i x y at_i at_i' => le (i + 1) x y at_i at_i')

/-- The pool is as long or longer after a run. -/
theorem length_le_of_exec (rest : (allocProgram backtraces st).Exec ok s moves' s') :
    s.procs.length ≤ s'.procs.length := by
  refine Exec.snocInduction (motive := fun _ (s' : AllocState) => s.procs.length ≤ s'.procs.length)
    le_rfl ?_ rest
  exact fun _ _ _ _ _ _ stepped ih => ih.trans (step_length_le stepped)

/-- What was there before has grown, and what came after has been added. -/
theorem exact_take_drop (before : (allocProgram backtraces st).Exec ok AllocState.initial moves s)
    (rest : (allocProgram backtraces st).Exec ok s moves' s') (total : k.isTotal = true) :
    s.exact k + ((s'.procs.drop s.procs.length).map (AllocCall.effect k)).sum ≤ s'.exact k := by
  have grown := sum_map_le_take (f := AllocCall.effect k) (length_le_of_exec rest)
    fun i a b at_i at_i' => effect_le_of_exec before rest total at_i at_i'
  have parts : s'.exact k = ((s'.procs.take s.procs.length).map (AllocCall.effect k)).sum +
      ((s'.procs.drop s.procs.length).map (AllocCall.effect k)).sum := by
    rw [AllocState.exact, ← List.sum_append, ← List.map_append, List.take_append_drop]
  rw [parts, AllocState.exact]
  omega

/-- A total does not go down. -/
theorem exact_mono (before : (allocProgram backtraces st).Exec ok AllocState.initial moves s)
    (rest : (allocProgram backtraces st).Exec ok s moves' s') (total : k.isTotal = true) :
    s.exact k ≤ s'.exact k := by
  have whole := exact_take_drop before rest total
  have added : 0 ≤ ((s'.procs.drop s.procs.length).map (AllocCall.effect k)).sum := by
    refine List.sum_nonneg fun x inMap => ?_
    obtain ⟨c, inDrop, rfl⟩ := List.mem_map.mp inMap
    obtain ⟨i, at_i⟩ := mem_procs_iff.mp (List.mem_of_mem_drop inDrop)
    exact (((numbered_of_exec (before.append rest)).wellFormed i c at_i).progress.effect_le total).1
  omega

/-- A peak does not go down. -/
theorem peak_mono (before : (allocProgram backtraces st).Exec ok AllocState.initial moves s)
    (rest : (allocProgram backtraces st).Exec ok s moves' s') (peak : k.isPeak = true) :
    (s.shared.counters k).toNat ≤ (s'.shared.counters k).toNat := by
  refine Exec.snocInduction (motive := fun _ (s' : AllocState) =>
    (s.shared.counters k).toNat ≤ (s'.shared.counters k).toNat) le_rfl ?_ rest
  intro ms t m t' sofar _ stepped le
  refine le.trans ?_
  cases m with
  | start arg =>
      obtain ⟨w, c, started, rfl⟩ := step_start stepped
      obtain ⟨rfl, rfl⟩ := allocProgram_start started
      exact le_rfl
  | act i a =>
      obtain ⟨c, w, c', at_i, acted, rfl⟩ := step_act stepped
      have progress := ((numbered_of_exec (before.append sofar)).wellFormed i c at_i).progress
      rcases (allocProgram_act acted).2.peak peak progress with ⟨same, _⟩ | ⟨u, _, raised⟩
      · exact (congrArg BitVec.toNat same).ge
      · rw [raised]
        split
        · exact Nat.le_of_lt ‹_›
        · exact le_rfl

/-- Without a handle no tracked allocation has returned. -/
theorem recorded_of_null (run : (allocProgram backtraces st).Exec Tracked AllocState.initial moves s)
    (null : s.shared.handle = false) : s.recorded = [] := by
  refine List.filter_eq_nil_iff.mpr fun c inCounted returned => ?_
  have counted := s.counted_of_mem c inCounted
  obtain ⟨i, at_i⟩ := mem_procs_iff.mp (List.mem_filter.mp inCounted).1
  have registered := registered_of_exec run i c at_i
  have pc : c.pc = .returned := of_decide_eq_true returned
  simp only [AllocCall.counted, AllocCall.allocated, Bool.and_eq_true, Bool.not_eq_true'] at counted
  simp only [AllocCall.Registered, pc, null, Bool.false_eq_true] at registered
  obtain ⟨j, wellFormed, guarded⟩ := wellFormed_guarded run c (mem_procs_iff.mpr ⟨i, at_i⟩)
  have made := guarded.recorded counted.1 counted.2.1 pc
  refine registered counted.2.2 fun none => ?_
  obtain ⟨u, us, some⟩ : ∃ u us, c.request.updates = u :: us := by
    cases c.request with
    | realloc block newSize => exact ⟨_, _, rfl⟩
    | _ => exact ⟨_, _, rfl⟩
  rw [none, some] at made
  cases made

/-- The handle is not taken back. -/
theorem handle_mono (rest : (allocProgram backtraces st).Exec ok s moves' s')
    (set : s.shared.handle = true) : s'.shared.handle = true := by
  refine Exec.sharedRel (R := fun w w' : AllocWorld => w.handle = true → w'.handle = true)
    (fun _ set => set) (fun left right set => right (left set)) ?_ ?_ rest set
  · intro w i arg w' c started set
    obtain ⟨rfl, rfl⟩ := allocProgram_start started
    exact set
  · intro w i c a w' c' acted set
    exact (allocProgram_act acted).2.handle set

/-- Where there is no handle, there was none before. -/
theorem null_before (rest : (allocProgram backtraces st).Exec ok s moves' s')
    (null : s'.shared.handle = false) : s.shared.handle = false := by
  by_contra set
  have kept := handle_mono rest (Bool.eq_true_of_not_eq_false set)
  rw [null] at kept
  cases kept

/-! ## What a snapshot shows -/

/-- A snapshot has found a total as it was in a state on the way, or zero when no tracked
allocation had returned. -/
theorem total_sampled {r₀ r : SnapshotCall}
    (run : (allocProgram backtraces st).Exec Tracked AllocState.initial moves s)
    (entry : r₀ = .init ∨ r₀ = .direct)
    (obs : Observes (allocProgram backtraces st) Tracked SnapshotCall.step s r₀ moves' s' r)
    (bounded : s'.grantedBytes < 2 ^ 64) (returned : r.pc = .returned) (total : k.isTotal = true) :
    ((r.seen k).toNat = 0 ∧ s.recorded = []) ∨
      (s.exact k ≤ (r.seen k).toNat ∧ ((r.seen k).toNat : ℤ) ≤ s'.exact k) := by
  rcases snapshot_sampled entry obs returned with ⟨zeros, t, visited, null⟩ | ⟨_, loaded⟩
  · obtain ⟨_, left⟩ := visited.left
    exact .inl ⟨by rw [zeros]; rfl, recorded_of_null run (null_before left null)⟩
  · obtain ⟨t, visited, value⟩ := loaded k
    have fits := Nat.lt_of_le_of_lt (grantedBytes_le visited) bounded
    obtain ⟨_, left⟩ := visited.left
    obtain ⟨_, right⟩ := visited.right
    rw [value, toNat_counter (run.append left) fits (Counter.notPeak_of_isTotal total)]
    exact .inr ⟨exact_mono run left total, exact_mono (run.append left) right total⟩

/-- The totals of a snapshot that was taken between `s` and `s'`. -/
structure HeapStats.Between (s s' : AllocState) (h : HeapStats 64) : Prop where
  blocks_ge : s.recorded.length ≤ h.totalBlocks.toNat
  blocks_le : h.totalBlocks.toNat ≤ s'.counted.length
  bytes_ge : (s.recorded.map fun c => c.request.growth).sum ≤ h.totalBytes.toNat
  bytes_le : h.totalBytes.toNat ≤ (s'.counted.map fun c => c.request.growth).sum

/-- The field that shows a counter. -/
def HeapStats.field (h : HeapStats 64) : Counter → U64
  | .allocCount => h.totalBlocks
  | .totalBytes => h.totalBytes
  | .peakBytes => h.maxBytes
  | .currentBytes => h.currBytes
  | .liveCount => h.currBlocks
  | .peakLiveCount => h.maxBlocks

/-- What a call that was begun in `s` has returned, of the states that it has been in: each
field as its counter was in one of them, or zeros where it found no handle, and then no
tracked allocation had returned in `s`. -/
inductive HeapStats.Shown (V : AllocState → Prop) (s : AllocState) (h : HeapStats 64) : Prop
  | counters : (∃ t : AllocState, V t ∧ t.shared.handle = true) →
    (∀ k, ∃ t : AllocState, V t ∧ h.field k = t.shared.counters k) → Shown V s h
  | zeros : (∃ t : AllocState, V t ∧ t.shared.handle = false) → s.recorded = [] →
    (∀ k, h.field k = 0) → Shown V s h

/-- What was counted before is counted after. -/
structure HeapStats.Later (h h' : HeapStats 64) : Prop where
  blocks : h.totalBlocks ≤ h'.totalBlocks
  bytes : h.totalBytes ≤ h'.totalBytes
  maxBlocks : h.maxBlocks ≤ h'.maxBlocks
  maxBytes : h.maxBytes ≤ h'.maxBytes

theorem between_of_observes {r₀ r : SnapshotCall}
    (run : (allocProgram backtraces st).Exec Tracked AllocState.initial moves s)
    (entry : r₀ = .init ∨ r₀ = .direct)
    (obs : Observes (allocProgram backtraces st) Tracked SnapshotCall.step s r₀ moves' s' r)
    (bounded : s'.grantedBytes < 2 ^ 64) (returned : r.pc = .returned) :
    HeapStats.Between s s' (HeapStats.get 64 r.stats) := by
  have bounds : ∀ {k : Counter}, k.isTotal = true →
      gains k s.recorded ≤ (r.seen k).toNat ∧ (r.seen k).toNat ≤ gains k s'.counted := by
    intro k total
    have before := exact_bounds run total
    have after := exact_bounds (run.append obs.exec) total
    rcases total_sampled run entry obs bounded returned total with ⟨zero, none⟩ | ⟨ge, le⟩
    · rw [zero, none]
      exact ⟨le_rfl, Nat.zero_le _⟩
    · omega
  have count := bounds (k := .allocCount) rfl
  have bytes := bounds (k := .totalBytes) rfl
  rw [gains_allocCount s.counted_of_recorded, gains_allocCount s'.counted_of_mem] at count
  exact ⟨count.1, count.2, bytes.1, bytes.2⟩

theorem HeapStats.field_get (r : SnapshotCall) (k : Counter) :
    (HeapStats.get 64 r.stats).field k = r.seen k := by
  cases k <;> simp only [field, get, SnapshotCall.stats, BitVec.setWidth_eq]

theorem shown_of_observes {r : SnapshotCall}
    (run : (allocProgram backtraces st).Exec Tracked AllocState.initial moves s)
    (obs : Observes (allocProgram backtraces st) Tracked SnapshotCall.step s .init moves' s' r)
    (returned : r.pc = .returned) :
    HeapStats.Shown (Visited (allocProgram backtraces st) Tracked s moves' s') s
      (HeapStats.get 64 r.stats) := by
  rcases snapshot_sampled (.inl rfl) obs returned with ⟨zeros, t, visited, null⟩ | ⟨handled, loaded⟩
  · obtain ⟨_, left⟩ := visited.left
    refine .zeros ⟨t, visited, null⟩ (recorded_of_null run (null_before left null)) fun k => ?_
    rw [HeapStats.field_get, zeros]
    rfl
  · refine .counters (handled rfl) fun k => ?_
    rw [HeapStats.field_get]
    exact loaded k

/-- **`HeapStats::get` while the program runs**: each field is a counter as it was on the
way, or all are zero where there was no handle yet; the totals lie between what had been
recorded before and what had been begun after, and a later call returns no smaller
totals and maxima. -/
theorem heapStats_between {r₁ r₂ : SnapshotCall} {s₂ s₃ : AllocState}
    {moves₁ moves₂ moves₃ : List (Move (Nat × Request) Answer)}
    (run : (allocProgram backtraces st).Exec Tracked AllocState.initial moves s₀)
    (first : Observes (allocProgram backtraces st) Tracked SnapshotCall.step s₀ .init moves₁ s₁ r₁)
    (between : (allocProgram backtraces st).Exec Tracked s₁ moves₂ s₂)
    (second : Observes (allocProgram backtraces st) Tracked SnapshotCall.step s₂ .init moves₃ s₃ r₂)
    (bounded : s₃.grantedBytes < 2 ^ 64) (returned₁ : r₁.pc = .returned)
    (returned₂ : r₂.pc = .returned) :
    (HeapStats.Between s₀ s₁ (HeapStats.get 64 r₁.stats) ∧
      HeapStats.Shown (Visited (allocProgram backtraces st) Tracked s₀ moves₁ s₁) s₀
        (HeapStats.get 64 r₁.stats)) ∧
    (HeapStats.Between s₂ s₃ (HeapStats.get 64 r₂.stats) ∧
      HeapStats.Shown (Visited (allocProgram backtraces st) Tracked s₂ moves₃ s₃) s₂
        (HeapStats.get 64 r₂.stats)) ∧
    HeapStats.Later (HeapStats.get 64 r₁.stats) (HeapStats.get 64 r₂.stats) := by
  have upTo := (run.append first.exec).append between
  have fits : s₁.grantedBytes < 2 ^ 64 := Nat.lt_of_le_of_lt
    (grantedBytes_le ⟨_, _, rfl, run.append first.exec, between.append second.exec⟩) bounded
  refine ⟨⟨between_of_observes run (.inl rfl) first fits returned₁, shown_of_observes run first returned₁⟩,
    ⟨between_of_observes upTo (.inl rfl) second bounded returned₂,
      shown_of_observes upTo second returned₂⟩, ?_⟩
  have mono : ∀ {k : Counter}, k.isTotal = true ∨ k.isPeak = true → r₁.seen k ≤ r₂.seen k := by
    intro k kind
    rw [BitVec.le_def]
    rcases snapshot_sampled (.inl rfl) first returned₁ with ⟨zeros, _⟩ | ⟨handled, loaded⟩
    · rw [zeros]
      exact Nat.zero_le _
    rcases snapshot_sampled (.inl rfl) second returned₂ with ⟨_, t', visited', null⟩ | ⟨_, loaded'⟩
    · -- the first call has seen the handle, which is not taken back
      obtain ⟨t, visited, set⟩ := handled rfl
      obtain ⟨_, right⟩ := visited.right
      obtain ⟨_, left⟩ := visited'.left
      rw [null_before ((right.append between).append left) null] at set
      cases set
    · obtain ⟨t, visited, value⟩ := loaded k
      obtain ⟨t', visited', value'⟩ := loaded' k
      obtain ⟨_, before⟩ := visited.left
      obtain ⟨_, right⟩ := visited.right
      obtain ⟨_, left⟩ := visited'.left
      obtain ⟨_, after⟩ := visited'.right
      have upTo' := run.append before
      have rest := (right.append between).append left
      rw [value, value']
      rcases kind with total | peak
      · have fits' : t'.grantedBytes < 2 ^ 64 :=
          Nat.lt_of_le_of_lt (grantedBytes_le ⟨_, _, rfl, upTo.append left, after⟩) bounded
        have fits : t.grantedBytes < 2 ^ 64 :=
          Nat.lt_of_le_of_lt (grantedBytes_le ⟨_, _, rfl, upTo', rest⟩) fits'
        have here := toNat_counter upTo' fits (Counter.notPeak_of_isTotal total)
        have there := toNat_counter (upTo'.append rest) fits' (Counter.notPeak_of_isTotal total)
        have grown := exact_mono upTo' rest total
        omega
      · exact peak_mono upTo' rest peak
  simp only [HeapStats.get, BitVec.setWidth_eq]
  exact ⟨mono (.inl rfl), mono (.inl rfl), mono (.inr rfl), mono (.inr rfl)⟩

/-! A snapshot that begins with one block allocated and freed, while an allocation of 16
bytes is on its way: it has found the new bytes, and not the new count. -/

def firstEvents : List (Option (Move (Nat × Request) Answer)) :=
  [none, none] ++ (Move.start (0, .alloc 16) :: .act 2 (.bare 0x2000) ::
    List.replicate 3 (.act 2 (.bare 0))).map some ++ List.replicate 5 none

def secondEvents : List (Option (Move (Nat × Request) Answer)) :=
  List.replicate 3 none ++ [some (.act 2 (.bare 0))] ++ List.replicate 4 none

def firstSnapshot : AllocState × SnapshotCall :=
  ((allocProgram false raceStatics).observe Tracked SnapshotCall.step peakEnd .init firstEvents).get
    (by decide)

def secondSnapshot : AllocState × SnapshotCall :=
  ((allocProgram false raceStatics).observe Tracked SnapshotCall.step firstSnapshot.1 .init
    secondEvents).get (by decide)

theorem firstObserved : Observes (allocProgram false raceStatics) Tracked SnapshotCall.step peakEnd
    .init ([] ++ firstEvents.reduceOption) firstSnapshot.1 firstSnapshot.2 :=
  .of_observe .start (Option.some_get (by decide)).symm

theorem secondObserved : Observes (allocProgram false raceStatics) Tracked SnapshotCall.step
    firstSnapshot.1 .init ([] ++ secondEvents.reduceOption) secondSnapshot.1 secondSnapshot.2 :=
  .of_observe .start (Option.some_get (by decide)).symm

theorem heapStats_between_late :
    HeapStats.Between peakEnd firstSnapshot.1 (HeapStats.get 64 firstSnapshot.2.stats) ∧
      HeapStats.Shown (Visited (allocProgram false raceStatics) Tracked peakEnd
        ([] ++ firstEvents.reduceOption) firstSnapshot.1) peakEnd
        (HeapStats.get 64 firstSnapshot.2.stats) ∧
      HeapStats.Later (HeapStats.get 64 firstSnapshot.2.stats) (HeapStats.get 64 secondSnapshot.2.stats) ∧
      firstSnapshot.2.stats.allocCount = 1 ∧ firstSnapshot.2.stats.totalBytes = 80 := by
  obtain ⟨⟨between, shown⟩, _, later⟩ := heapStats_between peakRun firstObserved (.nil _)
    secondObserved (by decide) (by decide) (by decide)
  exact ⟨between, shown, later, by decide, by decide⟩

/-! ## The window of a profiler -/

/-- What `Profiler::stop` makes of its snapshot and the baseline. -/
def AllocStats.since (now baseline : AllocStats) : AllocStats where
  allocCount := saturatingSub now.allocCount baseline.allocCount
  totalBytes := saturatingSub now.totalBytes baseline.totalBytes
  currentBytes := saturatingSub now.currentBytes baseline.currentBytes
  peakBytes := now.peakBytes
  liveCount := saturatingSub now.liveCount baseline.liveCount
  peakLiveCount := now.peakLiveCount

theorem Profiler.stop_eq (p : Profiler) (w : AllocWorld) :
    p.stop w = (currentSnapshotOrZeros w).since p.baseline := rfl

/-- The tracked allocations begun after `s` that have returned in `s'`. -/
def AllocState.inside (s s' : AllocState) : List AllocCall :=
  (s'.procs.drop s.procs.length).filter fun c => c.counted && decide (c.pc = .returned)

/-- The tracked allocations of `s'` that had not returned in `s`. -/
def AllocState.overlapping (s s' : AllocState) : List AllocCall :=
  s'.counted.filter fun c => decide (c ∉ s.recorded)

theorem AllocState.counted_of_inside (s s' : AllocState) : ∀ c ∈ s.inside s', c.counted = true := by
  intro c inList
  have both := (List.mem_filter.mp inList).2
  rw [Bool.and_eq_true] at both
  exact both.1

theorem AllocState.counted_of_overlapping (s s' : AllocState) :
    ∀ c ∈ s.overlapping s', c.counted = true :=
  fun c inList => s'.counted_of_mem c (List.mem_filter.mp inList).1

theorem gains_inside_le (run : (allocProgram backtraces st).Exec Tracked AllocState.initial moves s)
    (rest : (allocProgram backtraces st).Exec Tracked s moves' s') (total : k.isTotal = true) :
    s.exact k + gains k (s.inside s') ≤ s'.exact k := by
  refine le_trans (add_le_add le_rfl ?_) (exact_take_drop run rest total)
  rw [gains, AllocState.inside, ← sum_map_ite, Nat.cast_list_sum, List.map_map]
  refine List.sum_le_sum fun c inDrop => ?_
  obtain ⟨i, wellFormed, guarded⟩ :=
    wellFormed_guarded (run.append rest) c (List.mem_of_mem_drop inDrop)
  simp only [Function.comp_apply, Bool.and_eq_true, decide_eq_true_eq]
  split
  · rename_i both
    rw [(AllocCall.effect_counted wellFormed guarded total).2 both.2, if_pos both.1]
  · exact (wellFormed.progress.effect_le total).1

/-- The calls of a pool are told apart by their index. -/
theorem nodup_procs (run : (allocProgram backtraces st).Exec ok AllocState.initial moves s) :
    s.procs.Nodup := by
  refine List.nodup_iff_getElem?_ne_getElem?.mpr fun i j less inRange same => ?_
  have at_j := List.getElem?_eq_getElem inRange
  have wellFormed := (numbered_of_exec run).wellFormed
  have := (wellFormed i _ (same.trans at_j)).index
  have := (wellFormed j _ at_j).index
  omega

theorem exact_le_overlapping (run : (allocProgram backtraces st).Exec Tracked AllocState.initial moves s)
    (rest : (allocProgram backtraces st).Exec Tracked s moves' s') (total : k.isTotal = true) :
    s'.exact k ≤ gains k s.recorded + gains k (s.overlapping s') := by
  have all := (exact_bounds (run.append rest) total).2
  have parts := ((List.filter_append_perm (fun c => decide (c ∈ s.recorded)) s'.counted).map
    fun c => c.request.gain k).sum_eq
  obtain ⟨early, perm, sub⟩ :
      (s'.counted.filter fun c => decide (c ∈ s.recorded)).Subperm s.recorded :=
    (((nodup_procs (run.append rest)).filter _).filter _).subperm fun c inBoth =>
      of_decide_eq_true (List.mem_filter.mp inBoth).2
  have fewer := (sub.map fun c => c.request.gain k).sum_le_sum fun _ _ => Nat.zero_le _
  rw [(perm.map fun c => c.request.gain k).sum_eq] at fewer
  have others : s'.counted.filter (fun c => !decide (c ∈ s.recorded)) = s.overlapping s' :=
    List.filter_congr fun c _ => decide_not.symm
  rw [List.map_append, List.sum_append, others] at parts
  simp only [gains] at all ⊢
  omega

/-- **The window of a `Profiler` while the program runs**: the totals that `stop` returns
take in every tracked allocation made after `start` had returned and finished before
`stop` was called, and no allocation that had finished before `start` was called. -/
theorem profiler_window {r₁ r₂ : SnapshotCall} {s₂ s₃ : AllocState}
    {moves₁ moves₂ moves₃ : List (Move (Nat × Request) Answer)}
    (run : (allocProgram backtraces st).Exec Tracked AllocState.initial moves s₀)
    (starts : Observes (allocProgram backtraces st) Tracked SnapshotCall.step s₀ .init moves₁ s₁ r₁)
    (within : (allocProgram backtraces st).Exec Tracked s₁ moves₂ s₂)
    (stops : Observes (allocProgram backtraces st) Tracked SnapshotCall.step s₂ .init moves₃ s₃ r₂)
    (bounded : s₃.grantedBytes < 2 ^ 64) (started : r₁.pc = .returned) (stopped : r₂.pc = .returned) :
    ((s₁.inside s₂).length ≤ (r₂.stats.since r₁.stats).allocCount.toNat ∧
      (r₂.stats.since r₁.stats).allocCount.toNat ≤ (s₀.overlapping s₃).length) ∧
    (((s₁.inside s₂).map fun c => c.request.growth).sum ≤ (r₂.stats.since r₁.stats).totalBytes.toNat ∧
      (r₂.stats.since r₁.stats).totalBytes.toNat ≤
        ((s₀.overlapping s₃).map fun c => c.request.growth).sum) := by
  have run₁ := run.append starts.exec
  have run₂ := run₁.append within
  have fits : s₁.grantedBytes < 2 ^ 64 := Nat.lt_of_le_of_lt
    (grantedBytes_le ⟨_, _, rfl, run₁, within.append stops.exec⟩) bounded
  have bounds : ∀ {k : Counter}, k.isTotal = true →
      gains k (s₁.inside s₂) ≤ (r₂.seen k).toNat - (r₁.seen k).toNat ∧
        (r₂.seen k).toNat - (r₁.seen k).toNat ≤ gains k (s₀.overlapping s₃) := by
    intro k total
    have lower := gains_inside_le run₁ within total
    have upper := exact_le_overlapping run ((starts.exec.append within).append stops.exec) total
    have before := exact_bounds run total
    have early := exact_bounds run₁ total
    rcases total_sampled run₂ (.inl rfl) stops bounded stopped total with ⟨zero, none⟩ | ⟨ge, le⟩
    · have empty : s₁.inside s₂ = [] := by
        refine List.filter_eq_nil_iff.mpr fun c inDrop both => ?_
        rw [Bool.and_eq_true] at both
        have recorded : c ∈ s₂.recorded := List.mem_filter.mpr
          ⟨List.mem_filter.mpr ⟨List.mem_of_mem_drop inDrop, both.1⟩, both.2⟩
        rw [none] at recorded
        exact List.not_mem_nil recorded
      rw [zero, empty, Nat.zero_sub]
      exact ⟨le_rfl, Nat.zero_le _⟩
    · rcases total_sampled run (.inl rfl) starts fits started total with ⟨zero, none⟩ | ⟨ge', le'⟩
      · have nothing : gains k s₀.recorded = 0 := by rw [none]; rfl
        omega
      · omega
  have count := bounds (k := .allocCount) rfl
  have bytes := bounds (k := .totalBytes) rfl
  rw [gains_allocCount (AllocState.counted_of_inside s₁ s₂),
    gains_allocCount (AllocState.counted_of_overlapping s₀ s₃)] at count
  simp only [AllocStats.since, toNat_saturatingSub]
  exact ⟨count, bytes⟩

/-- The allocation of 16 bytes overlaps the window: its call is in the difference, and its
bytes are not. -/
theorem profiler_window_late :
    (secondSnapshot.2.stats.since firstSnapshot.2.stats).allocCount.toNat ≤
        (peakEnd.overlapping secondSnapshot.1).length ∧
      (peakEnd.overlapping secondSnapshot.1).length = 1 ∧
      (secondSnapshot.2.stats.since firstSnapshot.2.stats).allocCount = 1 ∧
      (secondSnapshot.2.stats.since firstSnapshot.2.stats).totalBytes = 0 := by
  have window := profiler_window peakRun firstObserved (.nil _) secondObserved (by decide) (by decide)
    (by decide)
  exact ⟨window.1.2, by decide, by decide, by decide⟩

end ModAlloc
