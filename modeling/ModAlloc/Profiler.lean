import ModAlloc.Peaks

/-!
# Profiler windows

`Profiler::start` and `Profiler::stop` take two snapshots, through `GLOBAL_HANDLE`,
and return their difference. While the handle is not set no allocation has been
tracked, so the zeros that stand in for a snapshot are the counters
(`currentSnapshotOrZeros_eq`). The totals and the levels of a window are therefore
exact (`profiler_delta`); its peaks are those of the whole run, which are the peaks of
the window only where the window comes up to what was there before
(`profiler_peak_iff`).
-/

namespace ModAlloc

open Interleaving Interleaving.Program

variable {backtraces : Bool} {st : Statics} {w w' : AllocWorld} {c c' : AllocCall}
  {moves moves' moves'' : List (Move (Nat × Request) Answer)} {s s' s₁ s₂ s₃ : AllocState}
  {ok : AllocState → Move (Nat × Request) Answer → Prop}

/-! ## Snapshots -/

structure AllocStats where
  allocCount : U64
  totalBytes : U64
  peakBytes : U64
  currentBytes : U64
  liveCount : U64
  peakLiveCount : U64
deriving DecidableEq, Repr

/-- `ModAlloc::snapshot` -/
def AllocWorld.snapshot (w : AllocWorld) : AllocStats where
  allocCount := w.counters .allocCount
  totalBytes := w.counters .totalBytes
  peakBytes := w.counters .peakBytes
  currentBytes := w.counters .currentBytes
  liveCount := w.counters .liveCount
  peakLiveCount := w.counters .peakLiveCount

def currentSnapshotOrZeros (w : AllocWorld) : AllocStats :=
  if w.handle then w.snapshot else ⟨0, 0, 0, 0, 0, 0⟩

def saturatingSub (a b : U64) : U64 := if b ≤ a then a - b else 0

theorem toNat_saturatingSub (a b : U64) : (saturatingSub a b).toNat = a.toNat - b.toNat := by
  rw [saturatingSub]
  split
  case isTrue le => exact BitVec.toNat_sub_of_le le
  case isFalse gt =>
      have order : a.toNat < b.toNat := BitVec.not_le.mp gt
      exact (Nat.sub_eq_zero_of_le (Nat.le_of_lt order)).symm

structure Profiler where
  baseline : AllocStats
deriving DecidableEq, Repr

namespace Profiler

def start (w : AllocWorld) : Profiler := ⟨currentSnapshotOrZeros w⟩

def stop (p : Profiler) (w : AllocWorld) : AllocStats :=
  let now := currentSnapshotOrZeros w
  { allocCount := saturatingSub now.allocCount p.baseline.allocCount
    totalBytes := saturatingSub now.totalBytes p.baseline.totalBytes
    currentBytes := saturatingSub now.currentBytes p.baseline.currentBytes
    peakBytes := now.peakBytes
    liveCount := saturatingSub now.liveCount p.baseline.liveCount
    peakLiveCount := now.peakLiveCount }

end Profiler

/-! ## The handle -/

/-- A tracked allocation that has come past `register_self` finds the handle set. -/
def AllocCall.Registered (w : AllocWorld) (c : AllocCall) : Prop :=
  match c.pc with
  | .update _ _ _ | .loadHandle | .casHandle => True
  | _ => c.request.isDealloc = false → c.updates ≠ [] → w.handle = true

theorem AllocCall.registered_of_handle (set : w.handle = true) : c.Registered w := by
  unfold Registered
  split
  · trivial
  · trivial
  · trivial
  · exact fun _ _ => set

theorem AllocCall.registered_of_unrecorded (none : c.updates = []) : c.Registered w := by
  unfold Registered
  split
  · trivial
  · trivial
  · trivial
  · exact fun _ some => absurd none some

theorem AllocCall.Registered.mono (registered : c.Registered w)
    (kept : w.handle = true → w'.handle = true) : c.Registered w' := by
  unfold Registered at registered ⊢
  split
  case h_1 | h_2 | h_3 => trivial
  case h_4 other₁ other₂ other₃ =>
      split at registered
      · exact absurd ‹_› (other₁ _ _ _)
      · exact absurd ‹_› other₂
      · exact absurd ‹_› other₃
      · exact fun kind some => kept (registered kind some)

/-- The handle is not taken back. -/
theorem AllocCall.Trans.handle (trans : AllocCall.Trans backtraces st w c w' c')
    (set : w.handle = true) : w'.handle = true := by
  cases trans with
  | register _ => rfl
  | _ => exact set

theorem AllocCall.Trans.registered (trans : AllocCall.Trans backtraces st w c w' c')
    (progress : c.Progress) (registered : c.Registered w) : c'.Registered w' := by
  cases trans with
  | systemFrees pc _ | systemFails pc _ | systemGrants pc _ _ | enters pc _ | denied pc _ =>
      simp only [Progress, pc] at progress
      exact registered_of_unrecorded progress.2.1
  | @update u rest old pc =>
      cases rest with
      | cons u' rest => trivial
      | nil =>
          cases kind : c.request.isDealloc with
          | true =>
              simp only [Registered, withUpdates, kind, if_true]
              exact fun notDealloc => absurd notDealloc (by decide)
          | false => simp only [Registered, withUpdates, kind, Bool.false_eq_true, if_false]
  | seeHandle pc set => exact registered_of_handle set
  | register pc => exact registered_of_handle rfl
  | seeNull pc _ => trivial
  | noFrames pc | captured pc _ _ | records pc _ _ | recorded pc _ _ | dropGuard pc =>
      simp only [Registered, pc] at registered
      exact registered

theorem registered_of_exec (run : (allocProgram backtraces st).Exec ok AllocState.initial moves s) :
    Everywhere AllocCall.Registered s := by
  refine everywhere_of_exec ?_ ?_ ?_ ?_ run
  · intro w i arg
    exact AllocCall.registered_of_unrecorded rfl
  · intro w d i arg registered
    exact registered
  · intro w c w' c' trans progress registered
    exact trans.registered progress registered
  · intro w c w' c' d trans registered
    exact registered.mono trans.handle

/-- A call that has taken part in no allocation. -/
def AllocCall.Silent (c : AllocCall) : Prop := c.request.isDealloc = true ∨ c.updates = []

/-- While the handle is not set, nothing has been allocated by a tracked call. -/
theorem silent_of_null (run : (allocProgram backtraces st).Exec ok AllocState.initial moves s)
    (quiescent : s.Quiescent) (null : s.shared.handle = false) : ∀ c ∈ s.procs, c.Silent := by
  intro c inProcs
  obtain ⟨i, at_i⟩ := mem_procs_iff.mp inProcs
  have registered := registered_of_exec run i c at_i
  simp only [AllocCall.Registered, quiescent c inProcs, null, Bool.false_eq_true] at registered
  cases kind : c.request.isDealloc with
  | true => exact .inl kind
  | false =>
      refine .inr ?_
      by_contra recorded
      exact registered kind recorded

/-- What is silent in the end has been silent before. -/
theorem silent_of_later {s₀ : AllocState} (silent : ∀ c ∈ s.procs, c.Silent)
    (run : (allocProgram backtraces st).Exec ok s₀ moves s) : ∀ c ∈ s₀.procs, c.Silent := by
  intro c inProcs
  obtain ⟨i, at_i⟩ := mem_procs_iff.mp inProcs
  obtain ⟨c', at_i'⟩ := run.getElem? at_i
  by_contra loud
  refine Exec.own (I := fun c : AllocCall => ¬ c.Silent) ?_ run at_i at_i' loud
    (silent c' (mem_procs_iff.mpr ⟨i, at_i'⟩))
  intro w i c a w' c' acted loud silent
  have trans := (allocProgram_act acted).2
  obtain ⟨_, _, request, _⟩ := trans.kept
  refine loud (silent.imp (fun kind => request ▸ kind) fun none => ?_)
  rcases trans.logs with ⟨same, _⟩ | ⟨u, old, longer, _⟩
  · rwa [← same]
  · rw [longer] at none
    exact (List.append_ne_nil_of_right_ne_nil _ (List.cons_ne_nil u []) none).elim

/-- With silent calls only, every counter is zero. -/
theorem exact_of_silent (run : (allocProgram backtraces st).Exec Tracked AllocState.initial moves s)
    (silent : ∀ c ∈ s.procs, c.Silent) {k : Counter} (notPeak : k.isPeak = false) : s.exact k = 0 := by
  have current := exact_le_exact run Request.Bounds.current_le
  have live := exact_le_exact run Request.Bounds.live_le
  have bytes_nonneg := exact_nonneg run measures_currentBytes
  have count_nonneg := exact_nonneg run measures_liveCount
  have none : ∀ {k : Counter}, (∀ {request : Request} {done : List Update}, request.Bounds done →
      request.isDealloc = true → (done.map (Update.change k)).sum ≤ 0) → s.exact k ≤ 0 := by
    intro k le
    refine (List.sum_le_card_nsmul _ 0 fun n inMap => ?_).trans (smul_zero _).le
    obtain ⟨c, inProcs, rfl⟩ := List.mem_map.mp inMap
    obtain ⟨i, wellFormed, _⟩ := wellFormed_guarded run c inProcs
    rcases silent c inProcs with kind | none
    · exact le (Request.bounds wellFormed.progress.sofar) kind
    · rw [AllocCall.effect, none, List.map_nil, List.sum_nil]
  have total : s.exact .totalBytes ≤ 0 := none fun {request done} bounds kind => by
    have := bounds.total_le
    rwa [Request.size_of_dealloc kind] at this
  have count : s.exact .allocCount ≤ 0 := none fun {request done} bounds kind => by
    have := bounds.count_le
    rwa [if_pos kind] at this
  cases k with
  | peakBytes | peakLiveCount => cases notPeak
  | _ => omega

/-- **The zeros stand in for the counters.** -/
theorem currentSnapshotOrZeros_eq
    (run : (allocProgram backtraces st).Exec Tracked AllocState.initial moves s)
    (bounded : s.grantedBytes < 2 ^ 64) (quiescent : s.Quiescent) :
    currentSnapshotOrZeros s.shared = s.shared.snapshot := by
  rw [currentSnapshotOrZeros]
  cases null : s.shared.handle with
  | true => exact if_pos rfl
  | false =>
      have silent := silent_of_null run quiescent null
      have zero : ∀ {k : Counter}, k.isPeak = false → s.shared.counters k = 0 := by
        intro k notPeak
        have value := toNat_counter run bounded notPeak
        rw [exact_of_silent run silent notPeak] at value
        exact BitVec.eq_of_toNat_eq (Int.natCast_inj.mp value)
      have peakZero : ∀ {level peak : Counter}, PeakOf level peak → s.shared.counters peak = 0 := by
        intro level peak peakOf
        obtain ⟨⟨s₁, visited, value⟩, _⟩ := peak_isGreatest id run bounded quiescent peakOf
        have fits := Nat.lt_of_le_of_lt (grantedBytes_le visited) bounded
        obtain ⟨before, after, _, left, right⟩ := visited
        have level₁ := toNat_counter left fits peakOf.notPeak
        rw [exact_of_silent left (silent_of_later silent right) peakOf.notPeak] at level₁
        rw [Int.natCast_inj.mp level₁] at value
        exact BitVec.eq_of_toNat_eq value.symm
      have counters : ∀ k, s.shared.counters k = 0 := by
        intro k
        cases k with
        | peakBytes => exact peakZero peakOf_bytes
        | peakLiveCount => exact peakZero peakOf_live
        | _ => exact zero rfl
      simp only [AllocWorld.snapshot, counters, Bool.false_eq_true, if_false]

/-! ## A window -/

/-- The tracked allocations, of any kind, between two points. -/
def AllocState.countedSince (s s' : AllocState) : List AllocCall :=
  (s'.procs.drop s.procs.length).filter AllocCall.counted

/-- The bytes of the blocks alive. -/
def AllocState.liveBytes (s : AllocState) : Nat := (s.live.map fun b => b.size.toNat).sum

/-- The totals and levels of a window from `s` to `s'`. The levels count from the
start, and are zero where there is less than at the start. -/
structure Delta (s s' : AllocState) (stats : AllocStats) : Prop where
  allocCount : stats.allocCount.toNat = (s.countedSince s').length
  totalBytes : stats.totalBytes.toNat = ((s.countedSince s').map fun c => c.request.growth).sum
  currentBytes : (stats.currentBytes.toNat : ℤ) = max 0 (s'.liveBytes - s.liveBytes)
  liveCount : (stats.liveCount.toNat : ℤ) = max 0 (s'.live.card - s.live.card)

/-- Calls that have returned are not changed by later moves. -/
theorem procs_eq_append (quiescent : s.Quiescent)
    (run : (allocProgram backtraces st).Exec ok s moves s') :
    s'.procs = s.procs ++ s'.procs.drop s.procs.length := by
  have kept : s.procs <+: s'.procs := by
    refine List.prefix_iff_getElem?.mpr fun i inRange => ?_
    have at_i : s.procs[i]? = some s.procs[i] := List.getElem?_eq_getElem inRange
    refine run.stuck (fun w a => ?_) at_i
    cases acted : (allocProgram backtraces st).act w i s.procs[i] a with
    | none => rfl
    | some r =>
        exact absurd (quiescent _ (List.getElem_mem inRange)) (allocProgram_act acted).2.running
  obtain ⟨later, eq⟩ := kept
  rw [← eq, List.drop_left]

theorem counted_append (quiescent : s.Quiescent)
    (run : (allocProgram backtraces st).Exec ok s moves s') :
    s'.counted = s.counted ++ s.countedSince s' := by
  rw [AllocState.counted, procs_eq_append quiescent run, List.filter_append]
  rfl

/-- **A window is exact.** -/
theorem delta_of_exec (before : (allocProgram backtraces st).Exec Tracked AllocState.initial moves s)
    (within : (allocProgram backtraces st).Exec Tracked s moves' s')
    (bounded : s'.grantedBytes < 2 ^ 64) (quiescent : s.Quiescent) (quiescent' : s'.Quiescent) :
    Delta s s' ((Profiler.start s.shared).stop s'.shared) := by
  have run := before.append within
  have bounded₀ : s.grantedBytes < 2 ^ 64 :=
    Nat.lt_of_le_of_lt (grantedBytes_le ⟨moves, moves', rfl, before, within⟩) bounded
  obtain ⟨calls, bytes⟩ := quiescent_totals before bounded₀ quiescent
  obtain ⟨calls', bytes'⟩ := quiescent_totals run bounded quiescent'
  obtain ⟨current, live⟩ := quiescent_levels before bounded₀ quiescent
  obtain ⟨current', live'⟩ := quiescent_levels run bounded quiescent'
  rw [counted_append quiescent within, List.length_append] at calls'
  rw [counted_append quiescent within, List.map_append, List.sum_append] at bytes'
  simp only [Profiler.stop, Profiler.start, currentSnapshotOrZeros_eq before bounded₀ quiescent,
    currentSnapshotOrZeros_eq run bounded quiescent']
  constructor
  all_goals simp only [toNat_saturatingSub, AllocWorld.snapshot]
  · omega
  · omega
  · rw [AllocState.liveBytes, AllocState.liveBytes]
    omega
  · omega

/-- **Profiler windows report exact deltas**, and adjacent windows add up. -/
theorem profiler_delta (upTo : (allocProgram backtraces st).Exec Tracked AllocState.initial moves s₁)
    (first : (allocProgram backtraces st).Exec Tracked s₁ moves' s₂)
    (second : (allocProgram backtraces st).Exec Tracked s₂ moves'' s₃)
    (bounded : s₃.grantedBytes < 2 ^ 64) (quiescent₁ : s₁.Quiescent) (quiescent₂ : s₂.Quiescent)
    (quiescent₃ : s₃.Quiescent) :
    Delta s₁ s₂ ((Profiler.start s₁.shared).stop s₂.shared) ∧
      ((Profiler.start s₁.shared).stop s₂.shared).allocCount.toNat +
          ((Profiler.start s₂.shared).stop s₃.shared).allocCount.toNat =
        ((Profiler.start s₁.shared).stop s₃.shared).allocCount.toNat ∧
      ((Profiler.start s₁.shared).stop s₂.shared).totalBytes.toNat +
          ((Profiler.start s₂.shared).stop s₃.shared).totalBytes.toNat =
        ((Profiler.start s₁.shared).stop s₃.shared).totalBytes.toNat := by
  have bounded₂ : s₂.grantedBytes < 2 ^ 64 :=
    Nat.lt_of_le_of_lt (grantedBytes_le ⟨moves', moves'', rfl, first, second⟩) bounded
  have delta := delta_of_exec upTo first bounded₂ quiescent₁ quiescent₂
  have delta' := delta_of_exec (upTo.append first) second bounded quiescent₂ quiescent₃
  have whole := delta_of_exec upTo (first.append second) bounded quiescent₁ quiescent₃
  have calls : s₁.countedSince s₃ = s₁.countedSince s₂ ++ s₂.countedSince s₃ := by
    have all := counted_append quiescent₁ (first.append second)
    rw [counted_append quiescent₂ second, counted_append quiescent₁ first, List.append_assoc] at all
    exact (List.append_cancel_left all).symm
  refine ⟨delta, ?_, ?_⟩
  · rw [delta.allocCount, delta'.allocCount, whole.allocCount, calls, List.length_append]
  · rw [delta.totalBytes, delta'.totalBytes, whole.totalBytes, calls, List.map_append,
      List.sum_append]

/-! A block is allocated, which registers the allocator, and freed; then a smaller
one is allocated. -/

def peakMoves : List (Move (Nat × Request) Answer) :=
  .start (0, .alloc 64) :: .act 0 (.bare 0x1000) :: List.replicate 10 (.act 0 (.bare 0)) ++
    .start (0, .dealloc ⟨0x1000, 64⟩) :: List.replicate 5 (.act 1 (.bare 0))

def quietMoves : List (Move (Nat × Request) Answer) :=
  .start (0, .alloc 16) :: .act 2 (.bare 0x2000) :: List.replicate 9 (.act 2 (.bare 0))

def peakEnd : AllocState :=
  ((allocProgram false raceStatics).run Tracked AllocState.initial peakMoves).get (by decide)

def quietEnd : AllocState :=
  ((allocProgram false raceStatics).run Tracked peakEnd quietMoves).get (by decide)

theorem peakRun :
    (allocProgram false raceStatics).Exec Tracked AllocState.initial peakMoves peakEnd :=
  Exec.of_run (Option.some_get (by decide)).symm

theorem quietRun : (allocProgram false raceStatics).Exec Tracked peakEnd quietMoves quietEnd :=
  Exec.of_run (Option.some_get (by decide)).symm

theorem profiler_delta_adjacent :
    ((Profiler.start AllocState.initial.shared).stop peakEnd.shared).totalBytes.toNat = 64 ∧
      64 + ((Profiler.start peakEnd.shared).stop quietEnd.shared).totalBytes.toNat =
        ((Profiler.start AllocState.initial.shared).stop quietEnd.shared).totalBytes.toNat := by
  obtain ⟨delta, _, total⟩ :=
    profiler_delta (.nil AllocState.initial) peakRun quietRun (by decide) (by decide) (by decide)
      (by decide)
  have first := delta.totalBytes.trans (show _ = 64 by decide)
  rw [first] at total
  exact ⟨first, total⟩

/-! ## The peaks of a window -/

/-- The values of a counter on the way from `s` to `s'`. -/
def valuesTaken (backtraces : Bool) (st : Statics) (k : Counter) (s : AllocState)
    (moves : List (Move (Nat × Request) Answer)) (s' : AllocState) : Set Nat :=
  levels (allocProgram backtraces st) Tracked (fun w => (w.counters k).toNat) s moves s'

/-- **When a peak belongs to the window**: `stop` returns the highest value of the whole
run, which is that of the window exactly when the window comes up to every value
before it. -/
theorem profiler_peak_iff
    (upTo : (allocProgram backtraces st).Exec Tracked AllocState.initial moves s₁)
    (within : (allocProgram backtraces st).Exec Tracked s₁ moves' s₂)
    (bounded : s₂.grantedBytes < 2 ^ 64) (quiescent₂ : s₂.Quiescent) :
    (IsGreatest (valuesTaken backtraces st .currentBytes s₁ moves' s₂)
        ((Profiler.start s₁.shared).stop s₂.shared).peakBytes.toNat ↔
      ∀ n ∈ valuesTaken backtraces st .currentBytes AllocState.initial moves s₁,
        ∃ n' ∈ valuesTaken backtraces st .currentBytes s₁ moves' s₂, n ≤ n') ∧
    (IsGreatest (valuesTaken backtraces st .liveCount s₁ moves' s₂)
        ((Profiler.start s₁.shared).stop s₂.shared).peakLiveCount.toNat ↔
      ∀ n ∈ valuesTaken backtraces st .liveCount AllocState.initial moves s₁,
        ∃ n' ∈ valuesTaken backtraces st .liveCount s₁ moves' s₂, n ≤ n') := by
  have run := upTo.append within
  have highest : ∀ {level peak : Counter}, PeakOf level peak →
      (IsGreatest (valuesTaken backtraces st level s₁ moves' s₂) (s₂.shared.counters peak).toNat ↔
        ∀ n ∈ valuesTaken backtraces st level AllocState.initial moves s₁,
          ∃ n' ∈ valuesTaken backtraces st level s₁ moves' s₂, n ≤ n') :=
    fun peakOf => isGreatest_second_iff upTo within
      (peak_isGreatest id run bounded quiescent₂ peakOf)
  simp only [Profiler.stop, currentSnapshotOrZeros_eq run bounded quiescent₂, AllocWorld.snapshot]
  exact ⟨highest peakOf_bytes, highest peakOf_live⟩

/-- From the beginning on, the peak is that of the window. -/
theorem profiler_peak_iff_first :
    IsGreatest (valuesTaken false raceStatics .currentBytes AllocState.initial peakMoves peakEnd)
      64 := by
  have exactly :=
    (profiler_peak_iff (.nil AllocState.initial) peakRun (by decide) (by decide)).1
  have value : ((Profiler.start AllocState.initial.shared).stop peakEnd.shared).peakBytes.toNat = 64 := by
    decide
  rw [value] at exactly
  refine exactly.mpr fun n ⟨t, ⟨before, after, parts, left, _⟩, own⟩ => ?_
  obtain ⟨rfl, _⟩ := List.append_eq_nil_iff.mp parts.symm
  cases left
  exact ⟨n, ⟨AllocState.initial, ⟨[], peakMoves, rfl, .nil _, peakRun⟩, own⟩, Nat.le_refl n⟩

/-- A peak of 64 bytes from before the window is returned for a window in which no
more than 16 bytes are alive. -/
theorem profiler_peak_earlier :
    (allocProgram false raceStatics).Exec Tracked AllocState.initial peakMoves peakEnd ∧
      (allocProgram false raceStatics).Exec Tracked peakEnd quietMoves quietEnd ∧
      peakEnd.Quiescent ∧ quietEnd.Quiescent ∧ quietEnd.grantedBytes < 2 ^ 64 ∧
      ((Profiler.start peakEnd.shared).stop quietEnd.shared).peakBytes = 64 ∧
      (∀ n ∈ valuesTaken false raceStatics .currentBytes peakEnd quietMoves quietEnd, n ≤ 16) ∧
      ¬ IsGreatest (valuesTaken false raceStatics .currentBytes peakEnd quietMoves quietEnd)
        ((Profiler.start peakEnd.shared).stop quietEnd.shared).peakBytes.toNat := by
  have quiet : ∀ t ∈ (allocProgram false raceStatics).trail peakEnd quietMoves,
      (t.shared.counters .currentBytes).toNat ≤ 16 := by decide
  have small : ∀ n ∈ valuesTaken false raceStatics .currentBytes peakEnd quietMoves quietEnd,
      n ≤ 16 := by
    rintro _ ⟨t, ⟨before, after, parts, left, right⟩, rfl⟩
    exact quiet t (parts ▸ left.mem_trail right)
  refine ⟨peakRun, quietRun, by decide, by decide, by decide, by decide, small, fun highest => ?_⟩
  exact absurd (small _ highest.1) (by decide)

end ModAlloc
