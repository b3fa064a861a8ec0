import ModAlloc.Tier1
import ModAlloc.Reconcile
import ModAlloc.Lib.HighWater

/-!
# The peaks

`peak_bytes` and `peak_live_count` are high-water marks: a call that adds to
`current_bytes` or `live_count` raises the peak by its next step, with the value
that its `fetch_add` brought about. With no call in flight a peak is therefore the
highest value that its counter had on the way (`peak_isGreatest`). The main result
of this module puts the Tier 1 counters together.
-/

namespace ModAlloc

open Interleaving Interleaving.Program

variable {backtraces : Bool} {st : Statics} {w w' : AllocWorld} {c c' : AllocCall}
  {moves : List (Move (Nat × Request) Answer)} {s s' : AllocState}

/-! ## Each addition is followed by its peak -/

/-- After each `fetch_add` on `level` comes the `fetch_max` that raises `peak` by the
same, and it comes nowhere else. -/
def InPairs (level peak : Counter) : List Update → Prop
  | [] => True
  | u :: rest =>
      (∀ n, rest.head? = some (.fetchMax peak n) ↔ u = .fetchAdd level n) ∧ InPairs level peak rest

theorem InPairs.right {level peak : Counter} {done us : List Update}
    (pairs : InPairs level peak (done ++ us)) : InPairs level peak us := by
  induction done with
  | nil => exact pairs
  | cons u done ih => exact ih pairs.2

theorem Request.inPairs (request : Request) :
    InPairs .currentBytes .peakBytes request.updates ∧
      InPairs .liveCount .peakLiveCount request.updates := by
  cases request with
  | alloc size | allocZeroed size => simp [updates, recordAlloc, InPairs]
  | dealloc block => simp [updates, recordDealloc, InPairs]
  | realloc block newSize =>
      rw [updates]
      rcases BitVec.lt_trichotomy block.size newSize with grows | same | shrinks
      · simp [recordRealloc_of_lt grows, InPairs]
      · simp [same, recordRealloc_self, InPairs]
      · simp [recordRealloc_of_gt shrinks, InPairs]

theorem Request.updates_head (request : Request) (c : Counter) (n : U64) :
    request.updates.head? ≠ some (.fetchMax c n) := by
  cases request <;> simp [updates, recordAlloc, recordDealloc, recordRealloc]

/-- `peak` is the peak of `level`, a counter that does not wrap. -/
structure PeakOf (level peak : Counter) : Prop where
  isPeak : peak.isPeak = true
  notPeak : level.isPeak = false
  inPairs : ∀ request : Request, InPairs level peak request.updates

theorem peakOf_bytes : PeakOf .currentBytes .peakBytes := ⟨rfl, rfl, fun request => request.inPairs.1⟩

theorem peakOf_live : PeakOf .liveCount .peakLiveCount := ⟨rfl, rfl, fun request => request.inPairs.2⟩

/-! ## The marks -/

/-- The value that a call is about to raise `peak` to. -/
def AllocCall.announced (peak : Counter) (c : AllocCall) : Option Nat :=
  match c.pc with
  | .update (.fetchMax k n) _ old => if k = peak then some (old + n).toNat else none
  | _ => none

theorem AllocCall.announced_withUpdates {peak : Counter} {done us : List Update} {old : U64} {v : Nat} :
    announced peak { c with updates := done, pc := withUpdates c.request old us } = some v ↔
      ∃ n, us.head? = some (.fetchMax peak n) ∧ v = (old + n).toNat := by
  cases us with
  | nil =>
      simp only [withUpdates, announced]
      cases c.request.isDealloc <;> simp
  | cons u us =>
      cases u with
      | fetchMax k n =>
          simp only [withUpdates, announced, List.head?_cons, Option.some.injEq, Update.fetchMax.injEq]
          split
          case isTrue same => simp [same, eq_comm]
          case isFalse other => simp [other]
      | _ => simp [withUpdates, announced]

theorem AllocCall.announced_eq_none {peak : Counter} (other : ∀ u rest old, c.pc ≠ .update u rest old) :
    c.announced peak = none := by
  unfold announced
  split
  · exact absurd ‹_› (other _ _ _)
  · rfl

/-- An update in its place in the list. -/
theorem AllocCall.update_place {u : Update} {rest : List Update} {old : U64} (progress : c.Progress)
    (pc : c.pc = .update u rest old) :
    u.wellAimed = true ∧ ∀ {level peak}, PeakOf level peak →
      ∀ n, rest.head? = some (.fetchMax peak n) ↔ u = .fetchAdd level n := by
  simp only [Progress, pc] at progress
  obtain ⟨_, place, _⟩ := progress
  refine ⟨c.request.wellAimed u ?_, fun peakOf n => ?_⟩
  · rw [← place]
    exact List.mem_append_right _ List.mem_cons_self
  · have pairs := peakOf.inPairs c.request
    rw [← place] at pairs
    exact pairs.right.1 n

/-- A step raises the peak to what was announced, or leaves it alone. -/
theorem AllocCall.Trans.peak {peak : Counter} (isPeak : peak.isPeak = true)
    (trans : AllocCall.Trans backtraces st w c w' c') (progress : c.Progress) :
    (w'.counters peak = w.counters peak ∧ c.announced peak = none) ∨
      ∃ v : U64, c.announced peak = some v.toNat ∧
        w'.counters peak = if w.counters peak < v then v else w.counters peak := by
  have quiet : ∀ {pc}, c.pc = pc → (∀ u rest old, pc ≠ .update u rest old) →
      c.announced peak = none := by
    rintro pc rfl other
    exact announced_eq_none other
  cases trans with
  | @update u rest old pc =>
      have aimed := (update_place progress pc).1
      cases u with
      | fetchMax k n =>
          by_cases same : k = peak
          · subst same
            refine .inr ⟨old + n, ?_, Function.update_self ..⟩
            simp only [announced, pc, if_true]
          · refine .inl ⟨Function.update_of_ne (Ne.symm same) .., ?_⟩
            simp only [announced, pc, if_neg same]
      | fetchAdd k n | fetchSub k n =>
          have other : peak ≠ k := by
            rintro rfl
            simp only [Update.wellAimed, isPeak, Bool.not_true, Bool.false_eq_true] at aimed
          refine .inl ⟨Function.update_of_ne other .., ?_⟩
          simp only [announced, pc]
  | systemFrees pc _ | systemFails pc _ | systemGrants pc _ _ | enters pc _ | denied pc _
  | seeHandle pc _ | seeNull pc _ | register pc | noFrames pc | captured pc _ _ | records pc _ _
  | recorded pc _ _ | dropGuard pc =>
      exact .inl ⟨rfl, quiet pc fun _ _ _ => CallPc.noConfusion⟩

/-- A step announces the value of the counter, or does not raise it. -/
theorem AllocCall.Trans.level {level peak : Counter} (peakOf : PeakOf level peak)
    (trans : AllocCall.Trans backtraces st w c w' c') (progress : c.Progress) :
    w'.counters level = w.counters level ∨ c'.effect level ≤ c.effect level ∨
      c'.announced peak = some (w'.counters level).toNat := by
  cases trans with
  | @update u rest old pc =>
      obtain ⟨aimed, pair⟩ := update_place progress pc
      cases u with
      | fetchMax k n =>
          refine .inl (Function.update_of_ne ?_ ..)
          rintro rfl
          exact absurd (peakOf.notPeak.symm.trans aimed) (by decide)
      | fetchAdd k n =>
          by_cases same : k = level
          · subst same
            refine .inr (.inr (announced_withUpdates.mpr ⟨n, (pair peakOf n).mpr rfl, ?_⟩))
            simp only [Update.exec, Function.update_self]
          · exact .inl (Function.update_of_ne (Ne.symm same) ..)
      | fetchSub k n =>
          refine .inr (.inl ?_)
          simp only [effect, List.map_append, List.sum_append, List.map_cons, List.map_nil,
            List.sum_cons, List.sum_nil, Update.change]
          split <;> omega
  | _ => exact .inl rfl

/-- Only an addition announces a value, the one that it has just brought about. -/
theorem AllocCall.Trans.announces {level peak : Counter} (peakOf : PeakOf level peak)
    (trans : AllocCall.Trans backtraces st w c w' c') (progress : c.Progress) {v : Nat}
    (announced : c'.announced peak = some v) :
    v = (w'.counters level).toNat ∧ ∃ n rest old, c.pc = .update (.fetchAdd level n) rest old ∧
      c' = { c with updates := c.updates ++ [.fetchAdd level n]
                    pc := withUpdates c.request (w.counters level) rest } := by
  cases trans with
  | enters _ _ =>
      have entered : AllocCall.announced peak
          { c with updates := c.updates, pc := withUpdates c.request 0 c.request.updates } = some v :=
        announced
      obtain ⟨n, first, _⟩ := announced_withUpdates.mp entered
      exact absurd first (c.request.updates_head peak n)
  | @update u rest old pc =>
      obtain ⟨n, next, rfl⟩ := announced_withUpdates.mp announced
      obtain rfl := ((update_place progress pc).2 peakOf n).mp next
      refine ⟨?_, n, rest, old, pc, rfl⟩
      simp only [Update.exec, Function.update_self]
  | seeHandle _ _ | register _ =>
      cases backtraces <;> cases announced
  | _ => cases announced

/-- What is known of the states on the way. -/
structure AllocState.Level (level : Counter) (s : AllocState) : Prop where
  numbered : s.Numbered
  exact : ((s.shared.counters level).toNat : ℤ) = s.exact level

theorem highWater {level peak : Counter} (peakOf : PeakOf level peak) :
    HighWater (allocProgram backtraces st) (AllocState.Level level)
      (fun w => (w.counters level).toNat) (fun w => (w.counters peak).toNat)
      (AllocCall.announced peak) where
  start := by
    intro w i arg w' c started
    obtain ⟨rfl, rfl⟩ := allocProgram_start started
    exact ⟨rfl, rfl, rfl⟩
  announces := by
    intro s i c a w' c' before after at_i acted
    have trans := (allocProgram_act acted).2
    rcases trans.level peakOf (before.numbered.wellFormed i c at_i).progress with
      same | lowers | announced
    · exact .inl (congrArg BitVec.toNat same).le
    · have moved := sum_set_add (AllocCall.effect level) c' at_i
      have exact := before.exact
      have exact' := after.exact
      simp only [AllocState.exact] at exact exact'
      exact .inl (by omega)
    · exact .inr announced
  raises := by
    intro s i c a w' c' v known at_i acted announced
    rcases (allocProgram_act acted).2.peak peakOf.isPeak
      (known.numbered.wellFormed i c at_i).progress with ⟨_, none⟩ | ⟨u, own, raised⟩
    · rw [none] at announced
      cases announced
    · obtain rfl := Option.some.inj (own.symm.trans announced)
      rw [raised]
      split
      · exact le_rfl
      · exact BitVec.not_lt.mp ‹_›
  grows := by
    intro s i c a w' c' known at_i acted
    rcases (allocProgram_act acted).2.peak peakOf.isPeak
      (known.numbered.wellFormed i c at_i).progress with ⟨same, _⟩ | ⟨u, _, raised⟩
    · exact (congrArg BitVec.toNat same).ge
    · rw [raised]
      split
      · exact Nat.le_of_lt ‹_›
      · exact le_rfl
  only := by
    intro s i c a w' c' known at_i acted
    rcases (allocProgram_act acted).2.peak peakOf.isPeak
      (known.numbered.wellFormed i c at_i).progress with ⟨same, _⟩ | ⟨u, own, raised⟩
    · exact .inl (congrArg BitVec.toNat same)
    · rw [raised]
      split
      · exact .inr own
      · exact .inl rfl
  fresh := by
    intro s i c a w' c' v known at_i acted announced
    exact ((allocProgram_act acted).2.announces peakOf
      (known.numbered.wellFormed i c at_i).progress announced).1

/-! ## Tier 1 -/

/-- The bytes that the counter `total_bytes` grows by: a `realloc` counts for its
growth. -/
def Request.growth : Request → Nat
  | .alloc size | .allocZeroed size => size.toNat
  | .dealloc _ => 0
  | .realloc block newSize => newSize.toNat - block.size.toNat

theorem Request.growth_add_overlap (request : Request) :
    request.growth + request.overlap = request.size.toNat := by
  cases request with
  | dealloc block => rfl
  | _ =>
      simp only [growth, overlap, size]
      omega

theorem AllocCall.Trans.allocated (trans : AllocCall.Trans backtraces st w c w' c')
    (allocated : c.allocated = true) : c'.allocated = true := by
  cases trans with
  | systemFrees _ _ | systemGrants _ _ _ =>
      rw [AllocCall.allocated, Bool.and_eq_true] at allocated
      exact allocated.2
  | _ => exact allocated

/-- What was granted before is granted later. -/
theorem grantedBytes_le {ok : AllocState → Move (Nat × Request) Answer → Prop} {s₀ s₁ : AllocState}
    (visited : Visited (allocProgram backtraces st) ok s₀ moves s s₁) :
    s₁.grantedBytes ≤ s.grantedBytes := by
  obtain ⟨_, _, _, _, rest⟩ := visited
  rw [AllocState.grantedBytes, AllocState.grantedBytes, ← sum_map_ite, ← sum_map_ite]
  refine Exec.sum_le ?_ rest
  intro w i c a w' c' acted
  have trans := (allocProgram_act acted).2
  by_cases allocated : c.allocated = true
  · rw [if_pos allocated, if_pos (trans.allocated allocated), trans.kept.2.2.1]
  · rw [if_neg allocated]
    exact Nat.zero_le _

/-- **A peak is the highest value on the way.** -/
theorem peak_isGreatest {ok : AllocState → Move (Nat × Request) Answer → Prop}
    (tracked : ∀ {moves s}, (allocProgram backtraces st).Exec ok AllocState.initial moves s →
      (allocProgram backtraces st).Exec Tracked AllocState.initial moves s)
    (run : (allocProgram backtraces st).Exec ok AllocState.initial moves s)
    (bounded : s.grantedBytes < 2 ^ 64) (quiescent : s.Quiescent) {level peak : Counter}
    (peakOf : PeakOf level peak) :
    IsGreatest {n | ∃ s₁ : AllocState,
      Visited (allocProgram backtraces st) ok AllocState.initial moves s s₁ ∧
        (s₁.shared.counters level).toNat = n} (s.shared.counters peak).toNat := by
  refine (highWater peakOf).isGreatest run (fun s₁ visited => ?_) rfl rfl fun c inProcs => ?_
  · have fits := Nat.lt_of_le_of_lt (grantedBytes_le visited) bounded
    obtain ⟨before, after, _, left, _⟩ := visited
    exact ⟨numbered_of_exec left, toNat_counter (tracked left) fits peakOf.notPeak⟩
  · refine AllocCall.announced_eq_none fun u rest old pc => ?_
    rw [quiescent c inProcs] at pc
    cases pc

section Tracked

variable (run : (allocProgram backtraces st).Exec Tracked AllocState.initial moves s)
  (bounded : s.grantedBytes < 2 ^ 64) (quiescent : s.Quiescent)

include run bounded quiescent

/-- The totals are the number and the growth of the calls granted. -/
theorem quiescent_totals :
    (s.shared.counters .allocCount).toNat = s.counted.length ∧
      (s.shared.counters .totalBytes).toNat = (s.counted.map fun c => c.request.growth).sum := by
  have nesting := run.mono fun _ _ => Tracked.nesting
  have calls := sum_effect_allocCount nesting quiescent
  have bytes := sum_effect_totalBytes nesting quiescent
  have count := toNat_counter run bounded (k := .allocCount) rfl
  have total := toNat_counter run bounded (k := .totalBytes) rfl
  have sizes : (s.counted.map fun c => c.request.growth).sum +
      (s.counted.map fun c => c.request.overlap).sum =
        (s.counted.map fun c => c.request.size.toNat).sum := by
    rw [← List.sum_map_add]
    exact congrArg List.sum (List.map_congr_left fun c _ => c.request.growth_add_overlap)
  rw [AllocState.exact] at count total
  exact ⟨by omega, by omega⟩

/-- The levels are the number and the bytes of the blocks alive. -/
theorem quiescent_levels :
    (s.shared.counters .currentBytes).toNat = (s.live.map fun b => b.size.toNat).sum ∧
      (s.shared.counters .liveCount).toNat = s.live.card := by
  have current := toNat_counter run bounded (k := .currentBytes) rfl
  have count := toNat_counter run bounded (k := .liveCount) rfl
  rw [(live_le_exact run measures_currentBytes).2 quiescent] at current
  rw [(live_le_exact run measures_liveCount).2 quiescent, Multiset.map_const', Multiset.sum_replicate,
    nsmul_one] at count
  refine ⟨Int.natCast_inj.mp (current.trans ?_), Int.natCast_inj.mp count⟩
  rw [Nat.cast_multiset_sum, Multiset.map_map]
  rfl

end Tracked

section Tier1

variable (run : (allocProgram backtraces st).Exec Disciplined AllocState.initial moves s)
  (bounded : s.grantedBytes < 2 ^ 64)

include run

/-- Where no call is nested, those counted are those granted. -/
theorem counted_of_disciplined : s.counted = s.procs.filter AllocCall.allocated := by
  refine List.filter_congr fun c inProcs => ?_
  rw [AllocCall.counted, disciplined_calls run c inProcs, Bool.not_false, Bool.true_and]

include bounded

/-- **Tier 1 is exact.** In every state no counter has wrapped, and while calls are
in flight the totals run ahead; with no call in flight the counters are the number
and the bytes of the calls granted and of the blocks alive, and the peaks are the
highest values on the way. -/
theorem tier1_exact :
    (∀ k, k.isPeak = false → ((s.shared.counters k).toNat : ℤ) = s.exact k) ∧
    s.shared.counters .currentBytes ≤ s.shared.counters .totalBytes ∧
    s.shared.counters .liveCount ≤ s.shared.counters .allocCount ∧
    (s.Quiescent →
      (s.shared.counters .allocCount).toNat = s.procs.countP AllocCall.allocated ∧
      (s.shared.counters .totalBytes).toNat =
        ((s.procs.filter AllocCall.allocated).map fun c => c.request.growth).sum ∧
      (s.shared.counters .currentBytes).toNat = (s.shared.idle.map fun b => b.size.toNat).sum ∧
      (s.shared.counters .liveCount).toNat = s.shared.idle.length ∧
      IsGreatest {n | ∃ s₁ : AllocState,
        Visited (allocProgram backtraces st) Disciplined AllocState.initial moves s s₁ ∧
          (s₁.shared.counters .currentBytes).toNat = n} (s.shared.counters .peakBytes).toNat ∧
      IsGreatest {n | ∃ s₁ : AllocState,
        Visited (allocProgram backtraces st) Disciplined AllocState.initial moves s s₁ ∧
          (s₁.shared.counters .liveCount).toNat = n} (s.shared.counters .peakLiveCount).toNat) := by
  obtain ⟨tracked, balanced⟩ := tracked_of_disciplined run
  have exact : ∀ k : Counter, k.isPeak = false → ((s.shared.counters k).toNat : ℤ) = s.exact k :=
    fun _ => toNat_counter tracked bounded
  have current := exact .currentBytes rfl
  have total := exact .totalBytes rfl
  have live := exact .liveCount rfl
  have count := exact .allocCount rfl
  have current_le := exact_le_exact tracked Request.Bounds.current_le
  have live_le := exact_le_exact tracked Request.Bounds.live_le
  refine ⟨exact, BitVec.le_def.mpr (by omega), BitVec.le_def.mpr (by omega), fun quiescent => ?_⟩
  obtain ⟨calls, bytes⟩ := quiescent_totals tracked bounded quiescent
  obtain ⟨levelBytes, levelCount⟩ := quiescent_levels tracked bounded quiescent
  rw [counted_of_disciplined run] at calls bytes
  rw [balanced.live] at levelBytes levelCount
  have peaks : ∀ {level peak : Counter}, PeakOf level peak →
      IsGreatest {n | ∃ s₁ : AllocState,
        Visited (allocProgram backtraces st) Disciplined AllocState.initial moves s s₁ ∧
          (s₁.shared.counters level).toNat = n} (s.shared.counters peak).toNat :=
    peak_isGreatest (fun run => (tracked_of_disciplined run).1) run bounded quiescent
  exact ⟨calls.trans List.countP_eq_length_filter.symm, bytes, levelBytes, levelCount,
    peaks peakOf_bytes, peaks peakOf_live⟩

end Tier1

/-! A block made by one thread grows on another, while an allocation fails. -/

def handoverMoves : List (Move (Nat × Request) Answer) :=
  .start (0, .alloc 16) :: .act 0 (.bare 0x1000) :: List.replicate 10 (.act 0 (.bare 0)) ++
    .start (1, .realloc ⟨0x1000, 16⟩ 24) :: .start (0, .alloc 8) :: .act 1 (.bare 0x2000) ::
    .act 2 (.bare 0) :: List.replicate 7 (.act 1 (.bare 0))

def handoverEnd : AllocState :=
  ((allocProgram false raceStatics).run Disciplined AllocState.initial handoverMoves).get
    (by decide)

theorem handoverRun :
    (allocProgram false raceStatics).Exec Disciplined AllocState.initial handoverMoves handoverEnd :=
  Exec.of_run (Option.some_get (by decide)).symm

theorem tier1_exact_handover :
    (handoverEnd.shared.counters .allocCount).toNat = 2 ∧
      (handoverEnd.shared.counters .totalBytes).toNat = 24 ∧
      (handoverEnd.shared.counters .currentBytes).toNat = 24 ∧
      (handoverEnd.shared.counters .liveCount).toNat = 1 := by
  obtain ⟨calls, total, current, live, _⟩ :=
    (tier1_exact handoverRun (by decide)).2.2.2 (by decide)
  exact ⟨calls.trans (by decide), total.trans (by decide), current.trans (by decide),
    live.trans (by decide)⟩

end ModAlloc
