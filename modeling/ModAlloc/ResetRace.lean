import ModAlloc.Snapshot
import ModAlloc.Lib.Beside

/-!
# `reset` while the program runs

`reset` stores zero in one counter after the other while allocator calls, and other calls
of `reset`, go on. The calls never act on what they load from a counter, so they take the
same course as without the resets (`lockstep`); a counter that is not a peak is what the
calls have made of it since it was last set to zero (`since_reset`). From these two: what
the totals show after a `reset` that other threads raced with (`reset_window`). A peak
stays one where it is set before its counter, as `peak_bytes` is (`reset_peak`).
-/

namespace ModAlloc

open Interleaving Interleaving.Program

variable {backtraces : Bool} {st : Statics} {w w' : AllocWorld} {c c' : AllocCall}
  {moves moves' : List (Move (Nat × Request) Answer)} {s s' t t' : AllocState} {k : Counter}

/-! ## The stores -/

/-- The next atomic step of a `reset`. -/
inductive ResetPc where
  | store (k : Counter)
  | returned
deriving DecidableEq, Repr

namespace ResetPc

/-- After the store to a counter; they are set in the order of `reset`. -/
def next : Counter → ResetPc
  | .allocCount => .store .totalBytes
  | .totalBytes => .store .peakBytes
  | .peakBytes => .store .currentBytes
  | .currentBytes => .store .liveCount
  | .liveCount => .store .peakLiveCount
  | .peakLiveCount => .returned

def step (w : AllocWorld) : ResetPc → Option (AllocWorld × ResetPc)
  | .store k => some ({ w with counters := Function.update w.counters k 0 }, next k)
  | .returned => none

/-- The counters that are still to be set. -/
def ahead : ResetPc → List Counter
  | .store .allocCount =>
      [.allocCount, .totalBytes, .peakBytes, .currentBytes, .liveCount, .peakLiveCount]
  | .store .totalBytes => [.totalBytes, .peakBytes, .currentBytes, .liveCount, .peakLiveCount]
  | .store .peakBytes => [.peakBytes, .currentBytes, .liveCount, .peakLiveCount]
  | .store .currentBytes => [.currentBytes, .liveCount, .peakLiveCount]
  | .store .liveCount => [.liveCount, .peakLiveCount]
  | .store .peakLiveCount => [.peakLiveCount]
  | .returned => []

theorem ahead_store (k : Counter) : (store k).ahead = k :: (next k).ahead := by
  cases k <;> rfl

theorem mem_ahead_allocCount (k : Counter) : k ∈ (store .allocCount).ahead := by
  cases k <;> decide

end ResetPc

/-- Any number of calls of `reset`. -/
def resetProgram : Program AllocWorld ResetPc Unit Unit where
  start w _ _ := some (w, .store .allocCount)
  act w _ r _ := r.step w

/-- Allocator calls and calls of `reset`. -/
abbrev ResetState := Both AllocWorld AllocCall ResetPc

def ResetState.initial : ResetState := ⟨AllocWorld.initial, [], []⟩

/-- The allocator calls. -/
def ResetState.alloc (b : ResetState) : AllocState := b.left

/-- Moves of either; those of the allocator calls are listed. -/
abbrev ResetRun (backtraces : Bool) (st : Statics) :
    ResetState → List (Move (Nat × Request) Answer) → ResetState → Prop :=
  Beside (allocProgram backtraces st) resetProgram Tracked

/-- What a step of the resets does: nothing, or it sets a counter to zero. -/
theorem resetProgram_step {rs : List ResetPc} {n : Move Unit Unit} {p : Pool AllocWorld ResetPc}
    (stepped : resetProgram.step ⟨w, rs⟩ n = some p) :
    (p.shared = w ∧ p.procs = rs ++ [.store .allocCount]) ∨
      ∃ i k, rs[i]? = some (.store k) ∧ p.procs = rs.set i (.next k) ∧
        p.shared = { w with counters := Function.update w.counters k 0 } := by
  cases n with
  | start x =>
      obtain ⟨_, _, started, rfl⟩ := step_start stepped
      cases started
      exact .inl ⟨rfl, rfl⟩
  | act i a =>
      obtain ⟨r, _, _, at_i, acted, rfl⟩ := step_act stepped
      cases r with
      | store k =>
          cases acted
          exact .inr ⟨i, k, at_i, rfl, rfl⟩
      | returned => cases acted

/-- The first `reset` to begin after `j` others has not set the counter yet. -/
def Waiting (k : Counter) (j : Nat) (rs : List ResetPc) : Prop :=
  ∀ r, rs[j]? = some r → k ∈ r.ahead

theorem waiting_step {rs : List ResetPc} {n : Move Unit Unit} {p : Pool AllocWorld ResetPc} {j : Nat}
    (stepped : resetProgram.step ⟨w, rs⟩ n = some p) :
    p.shared.counters k = 0 ∨
      (p.shared.counters k = w.counters k ∧ (Waiting k j rs → Waiting k j p.procs)) := by
  rcases resetProgram_step stepped with ⟨same, begun⟩ | ⟨i, k', at_i, gone, stored⟩
  · refine .inr ⟨by rw [same], fun waiting r at_j => ?_⟩
    rw [begun] at at_j
    rcases Nat.lt_or_ge j rs.length with old | new
    · rw [List.getElem?_append_left old] at at_j
      exact waiting r at_j
    · rw [List.getElem?_append_right new, List.getElem?_singleton] at at_j
      split at at_j
      · cases at_j
        exact ResetPc.mem_ahead_allocCount k
      · cases at_j
  · by_cases own : k = k'
    · subst own
      exact .inl (stored ▸ Function.update_self ..)
    · refine .inr ⟨stored ▸ Function.update_of_ne own .., fun waiting r at_j => ?_⟩
      rw [gone] at at_j
      by_cases same : i = j
      · subst same
        rw [List.getElem?_set_self (List.getElem?_eq_some_iff.mp at_i).1, Option.some.injEq] at at_j
        have isAhead := waiting _ at_i
        rw [ResetPc.ahead_store] at isAhead
        exact at_j ▸ (List.mem_cons.mp isAhead).resolve_left own
      · rw [List.getElem?_set_ne same] at at_j
        exact waiting r at_j

/-! ## What the calls go by -/

/-- A call goes on as it would with any other value loaded. -/
def CallPc.blind : CallPc → CallPc
  | .update u rest _ => .update u rest 0
  | pc => pc

def AllocCall.blind (c : AllocCall) : AllocCall := { c with pc := c.pc.blind }

def AllocWorld.blind (w : AllocWorld) : AllocWorld := { w with counters := Counters.new }

/-- A state without the counters and what was loaded from them. -/
def AllocState.blind (s : AllocState) : AllocState := ⟨s.shared.blind, s.procs.map AllocCall.blind⟩

theorem AllocCall.blind_withUpdates {done us : List Update} {old : U64} :
    AllocCall.blind { c with updates := done, pc := withUpdates c.request old us } =
      { c with updates := done, pc := withUpdates c.request 0 us } := by
  cases us with
  | cons u us => rfl
  | nil =>
      simp only [blind, withUpdates]
      split <;> rfl

theorem AllocCall.blind_of_not_update (other : ∀ u rest old, c.pc ≠ .update u rest old) :
    c.blind = c := by
  rw [blind, CallPc.blind.eq_2 _ fun u rest old pc => other u rest old pc]

/-- Only the counters that a step leaves depend on those that it finds. -/
theorem AllocCall.step_counters (x : Counters) (a : Answer) :
    (c.step backtraces st { w with counters := x } a).map (Prod.map AllocWorld.blind AllocCall.blind) =
      (c.step backtraces st w a).map (Prod.map AllocWorld.blind AllocCall.blind) := by
  unfold step
  dsimp only
  split
  · rfl
  cases pc : c.pc with
  | system =>
      dsimp only
      split
      · rfl
      · split <;> rfl
  | enter =>
      dsimp only
      split <;> rfl
  | update u rest old =>
      simp only [Option.map_some, Prod.map, blind_withUpdates]
      rfl
  | loadHandle | casHandle | dropGuard | returned => rfl
  | capture =>
      dsimp only
      split
      · rfl
      · simp only [Option.map_map]
        rfl
  | inTable k =>
      simp only [Option.map_map]
      rfl

/-- A step does not depend on the value loaded before. -/
theorem AllocCall.step_blind (a : Answer) :
    (c.blind.step backtraces st w a).map (Prod.map AllocWorld.blind AllocCall.blind) =
      (c.step backtraces st w a).map (Prod.map AllocWorld.blind AllocCall.blind) := by
  by_cases isUpdate : ∃ u rest old, c.pc = .update u rest old
  · obtain ⟨u, rest, old, pc⟩ := isUpdate
    have blindPc : c.blind.pc = .update u rest 0 := by rw [blind, pc, CallPc.blind]
    unfold step
    rw [show c.blind.thread = c.thread from rfl, show c.blind.index = c.index from rfl]
    split
    · rfl
    · simp only [blindPc, pc, Option.map_some, Prod.map]
      exact congrArg some (Prod.ext rfl
        ((blind_withUpdates (c := c.blind)).trans (blind_withUpdates (c := c)).symm))
  · rw [blind_of_not_update fun u rest old pc => isUpdate ⟨u, rest, old, pc⟩]

theorem AllocWorld.eq_of_blind {v : AllocWorld} (same : w.blind = v.blind) :
    v = { w with counters := v.counters } := by
  obtain ⟨_, _, _, _, _, _⟩ := w
  obtain ⟨_, _, _, _, _, _⟩ := v
  cases same
  rfl

/-- **A move depends on nothing but the blind part of the state.** -/
theorem AllocState.step_blind (same : s.blind = t.blind) {m : Move (Nat × Request) Answer}
    (stepped : (allocProgram backtraces st).step s m = some s') :
    ∃ t' : AllocState, (allocProgram backtraces st).step t m = some t' ∧ s'.blind = t'.blind := by
  have procs : s.procs.map AllocCall.blind = t.procs.map AllocCall.blind := congrArg Pool.procs same
  have world := AllocWorld.eq_of_blind (congrArg Pool.shared same : s.shared.blind = t.shared.blind)
  cases m with
  | start arg =>
      obtain ⟨w, c, started, rfl⟩ := step_start stepped
      obtain ⟨rfl, rfl⟩ := allocProgram_start started
      refine ⟨_, rfl, ?_⟩
      have length : s.procs.length = t.procs.length := by
        simpa only [List.length_map] using congrArg List.length procs
      simp only [blind, List.map_append, procs, length]
      rw [world]
      rfl
  | act i a =>
      obtain ⟨c, w, c', at_i, acted, rfl⟩ := step_act stepped
      obtain ⟨d, at_i', blindCall⟩ : ∃ d, t.procs[i]? = some d ∧ d.blind = c.blind := by
        have at_i' : (t.procs.map AllocCall.blind)[i]? = some c.blind := by
          rw [← procs, List.getElem?_map, at_i, Option.map_some]
        rw [List.getElem?_map] at at_i'
        exact Option.map_eq_some_iff.mp at_i'
      have image : (d.step backtraces st t.shared a).map (Prod.map AllocWorld.blind AllocCall.blind) =
          some (w.blind, c'.blind) := by
        rw [world, AllocCall.step_counters, ← AllocCall.step_blind, blindCall, AllocCall.step_blind,
          show c.step backtraces st s.shared a = some (w, c') from acted]
        rfl
      obtain ⟨⟨v, d'⟩, acted', eq⟩ := Option.map_eq_some_iff.mp image
      obtain ⟨blindWorld, blindCall'⟩ := Prod.mk.inj eq
      refine ⟨_, step_act_eq at_i' acted', ?_⟩
      simp only [blind, List.map_set, procs, blindWorld, blindCall']

/-! ## What the blind part shows -/

theorem AllocCall.returned_blind : c.blind.pc = .returned ↔ c.pc = .returned := by
  cases pc : c.pc <;> simp [blind, CallPc.blind, pc]

theorem AllocCall.holdsGuard_blind (c : AllocCall) : c.blind.holdsGuard = c.holdsGuard := by
  cases pc : c.pc <;> simp [holdsGuard, blind, CallPc.blind, pc]

theorem AllocCall.made_blind (c : AllocCall) : c.blind.made = c.made := by
  simp only [made, returned_blind]
  rfl

theorem AllocState.live_blind (s : AllocState) : s.blind.live = s.live := by
  simp only [live, blind, List.map_map]
  exact congrArg₂ _ (congrArg List.sum (List.map_congr_left fun c _ => c.made_blind)) rfl

theorem AllocState.exact_blind (s : AllocState) (k : Counter) : s.blind.exact k = s.exact k := by
  simp only [exact, blind, List.map_map]
  rfl

theorem AllocState.grantedBytes_blind (s : AllocState) : s.blind.grantedBytes = s.grantedBytes := by
  simp only [grantedBytes, blind, List.filter_map, List.map_map]
  rfl

/-- Calls that have returned have nothing to be blind to. -/
theorem filter_blind {p : AllocCall → Bool} (keeps : ∀ c, p c.blind = p c)
    (only : ∀ c, p c = true → c.pc = .returned) (l : List AllocCall) :
    (l.map AllocCall.blind).filter p = l.filter p := by
  rw [List.filter_map, show p ∘ AllocCall.blind = p from funext keeps, List.map_congr_left (g := id),
    List.map_id]
  intro c kept
  refine AllocCall.blind_of_not_update fun u rest old pc => ?_
  rw [only c (List.mem_filter.mp kept).2] at pc
  cases pc

theorem AllocState.recorded_blind (s : AllocState) : s.blind.recorded = s.recorded := by
  simp only [recorded, counted, List.filter_filter]
  refine filter_blind (fun c => ?_) (fun c kept => ?_) s.procs
  · rw [decide_eq_decide.mpr AllocCall.returned_blind]
    rfl
  · exact of_decide_eq_true (Bool.and_eq_true .. ▸ kept).1

theorem AllocState.inside_blind (s s' : AllocState) : s.blind.inside s'.blind = s.inside s' := by
  simp only [inside, blind, List.length_map, ← List.map_drop]
  refine filter_blind (fun c => ?_) (fun c kept => ?_) _
  · rw [decide_eq_decide.mpr AllocCall.returned_blind]
    rfl
  · exact of_decide_eq_true (Bool.and_eq_true .. ▸ kept).2

theorem AllocState.gains_overlapping_blind (s s' : AllocState) :
    gains k (s.blind.overlapping s'.blind) = gains k (s.overlapping s') := by
  have isRecorded : ∀ c : AllocCall, c.blind ∈ s.recorded ↔ c ∈ s.recorded := by
    intro c
    have fixed : c.pc = .returned → c.blind = c := fun returned =>
      AllocCall.blind_of_not_update fun u rest old pc => by rw [returned] at pc; cases pc
    constructor
    · intro inRecorded
      have returned : c.blind.pc = .returned := of_decide_eq_true (List.mem_filter.mp inRecorded).2
      rwa [fixed (AllocCall.returned_blind.mp returned)] at inRecorded
    · intro inRecorded
      rwa [fixed (of_decide_eq_true (List.mem_filter.mp inRecorded).2)]
  have all : s.blind.overlapping s'.blind = (s.overlapping s').map AllocCall.blind := by
    simp only [overlapping, counted, recorded_blind]
    simp only [blind, List.filter_map, List.filter_filter]
    refine congrArg _ (List.filter_congr fun c _ => ?_)
    simp only [Function.comp_apply, isRecorded]
    rfl
  rw [all, gains, List.map_map]
  rfl

theorem tracked_blind {m : Move (Nat × Request) Answer} : Tracked s.blind m ↔ Tracked s m := by
  cases m with
  | start arg =>
      simp only [Tracked, AllocState.live_blind]
      refine and_congr_right fun _ => or_congr Iff.rfl ?_
      simp only [AllocState.blind, List.mem_map, exists_exists_and_eq_and, AllocCall.holdsGuard_blind]
      rfl
  | act i a => exact Iff.rfl

/-! ## Runs with resets -/

/-- Without the resets, the calls take the same course. -/
theorem lockstep {b b' : ResetState}
    (run : ResetRun backtraces st b moves b') (same : b.alloc.blind = t.blind) :
    ∃ t' : AllocState, (allocProgram backtraces st).Exec Tracked t moves t' ∧
      b'.alloc.blind = t'.blind := by
  refine Beside.lockstep (E := fun s t : AllocState => s.blind = t.blind) ?_ ?_ run same
  · intro s s' t m same cond stepped
    exact ⟨tracked_blind.mp (same ▸ tracked_blind.mpr cond), AllocState.step_blind same stepped⟩
  · intro s t rs n p same stepped
    refine Eq.trans ?_ same
    rcases resetProgram_step stepped with ⟨kept, _⟩ | ⟨_, _, _, _, stored⟩
    · rw [kept]
    · rw [stored]
      rfl

/-- A move of an allocator call moves a counter by as much as it moves the effects. -/
theorem account_step (notPeak : k.isPeak = false) (numbered : s.Numbered)
    {m : Move (Nat × Request) Answer} (stepped : (allocProgram backtraces st).step s m = some s') :
    s'.shared.counters k + (s.procs.map fun c => ((c.effect k : ℤ) : U64)).sum =
      s.shared.counters k + (s'.procs.map fun c => ((c.effect k : ℤ) : U64)).sum := by
  cases m with
  | start arg =>
      obtain ⟨w, c, started, rfl⟩ := step_start stepped
      obtain ⟨rfl, rfl⟩ := allocProgram_start started
      rw [List.map_append, List.sum_append]
      exact congrArg _ (add_zero _).symm
  | act i a =>
      obtain ⟨c, w, c', at_i, acted, rfl⟩ := step_act stepped
      have moved := (allocProgram_act acted).2.account notPeak (numbered.wellFormed i c at_i).progress
      have sums := sum_set_add (fun c : AllocCall => ((c.effect k : ℤ) : U64)) c' at_i
      linear_combination moved - sums

theorem numbered_step {rs : List ResetPc} {n : Move Unit Unit} {p : Pool AllocWorld ResetPc}
    (numbered : s.Numbered) (stepped : resetProgram.step ⟨s.shared, rs⟩ n = some p) :
    AllocState.Numbered ⟨p.shared, s.procs⟩ := by
  obtain ⟨bound, wellFormed⟩ := numbered
  refine ⟨fun t i inStack => bound t i ?_, wellFormed⟩
  rcases resetProgram_step stepped with ⟨kept, _⟩ | ⟨_, _, _, _, stored⟩
  · rwa [kept] at inStack
  · rwa [stored] at inStack

theorem numbered_of_resets {ok : AllocState → Move (Nat × Request) Answer → Prop} {b : ResetState}
    (run : Beside (allocProgram backtraces st) resetProgram ok ResetState.initial moves b) :
    b.alloc.Numbered :=
  Beside.invariant (fun b => AllocState.Numbered b.left)
    (fun numbered _ stepped => numbered.step stepped)
    (fun numbered stepped => numbered_step numbered stepped) run AllocState.Numbered.initial

/-- **A counter is what the calls have made of it since a `reset` set it**, in a state `r`
on the way. -/
theorem since_reset {b₀ b₁ : ResetState} {moves₀ : List (Move (Nat × Request) Answer)}
    (run : ResetRun backtraces st ResetState.initial moves₀ b₀)
    (during : ResetRun backtraces st b₀ moves b₁)
    (returned : b₁.others[b₀.others.length]? = some .returned)
    (rest : (allocProgram backtraces st).Exec Tracked b₁.alloc moves' s) (notPeak : k.isPeak = false) :
    ∃ (r : ResetState) (before after : List (Move (Nat × Request) Answer)), moves = before ++ after ∧
      ResetRun backtraces st b₀ before r ∧ ResetRun backtraces st r after b₁ ∧
      s.shared.counters k = ((s.exact k - r.alloc.exact k : ℤ) : U64) := by
  have numbered : b₀.alloc.Numbered :=
    numbered_of_resets run
  obtain ⟨numbered₁, waiting | ⟨r, before, after, parts, first, second, value⟩⟩ :=
    Beside.account (A := AllocState.Numbered) (c := fun w : AllocWorld => w.counters k)
      (f := fun c : AllocCall => ((c.effect k : ℤ) : U64)) (Waiting k b₀.others.length)
      (fun numbered _ stepped => ⟨numbered.step stepped, account_step notPeak numbered stepped⟩)
      (fun numbered stepped => ⟨numbered_step numbered stepped, waiting_step stepped⟩)
      during numbered fun r at_end => by
        rw [List.getElem?_eq_none le_rfl] at at_end
        cases at_end
  · exact absurd (waiting _ returned) List.not_mem_nil
  · refine ⟨r, before, after, parts, first, second, ?_⟩
    have moved := (Exec.invariant (fun s : AllocState => s.Numbered ∧ s.shared.counters k =
        (s.procs.map fun c => ((c.effect k : ℤ) : U64)).sum -
          (r.procs.map fun c => ((c.effect k : ℤ) : U64)).sum) ?_ rest ⟨numbered₁, value⟩).2
    · rw [moved, AllocState.exact, AllocState.exact, Int.cast_sub, Int.cast_list_sum,
        Int.cast_list_sum, List.map_map, List.map_map]
      rfl
    · rintro s m s' ⟨numbered, sofar⟩ _ stepped
      have step := account_step notPeak numbered stepped
      exact ⟨numbered.step stepped, by linear_combination step + sofar⟩

/-- **What a `reset` leaves of the totals.** Other threads go on while it runs. Afterwards
the totals take in every tracked allocation that was made after it had returned and has
finished, and none that had finished before it began. -/
theorem reset_window {b₀ b₁ : ResetState} {moves₀ : List (Move (Nat × Request) Answer)}
    (run : ResetRun backtraces st ResetState.initial moves₀ b₀)
    (during : ResetRun backtraces st b₀ moves b₁)
    (returned : b₁.others[b₀.others.length]? = some .returned)
    (rest : (allocProgram backtraces st).Exec Tracked b₁.alloc moves' s)
    (bounded : s.grantedBytes < 2 ^ 64) :
    ((b₁.alloc.inside s).length ≤ (s.shared.counters .allocCount).toNat ∧
      (s.shared.counters .allocCount).toNat ≤ (b₀.alloc.overlapping s).length) ∧
    (((b₁.alloc.inside s).map fun c => c.request.growth).sum ≤
        (s.shared.counters .totalBytes).toNat ∧
      (s.shared.counters .totalBytes).toNat ≤
        ((b₀.alloc.overlapping s).map fun c => c.request.growth).sum) := by
  have bounds : ∀ {k : Counter}, k.isTotal = true →
      gains k (b₁.alloc.inside s) ≤ (s.shared.counters k).toNat ∧
        (s.shared.counters k).toNat ≤ gains k (b₀.alloc.overlapping s) := by
    intro k total
    obtain ⟨r, before, after, rfl, first, second, value⟩ :=
      since_reset run during returned rest (Counter.notPeak_of_isTotal total)
    -- the same calls without the resets
    obtain ⟨t₀, run₀, same₀⟩ := lockstep (t := AllocState.initial) run rfl
    obtain ⟨tr, upTo, same⟩ := lockstep first same₀
    obtain ⟨t₁, onward, same₁⟩ := lockstep second same
    obtain ⟨t, rest', same'⟩ : ∃ t : AllocState, (allocProgram backtraces st).Exec Tracked t₁ moves' t ∧
        s.blind = t.blind := lockstep (b := b₁) rest.beside same₁
    have exact : ∀ {u v : AllocState}, u.blind = v.blind → u.exact k = v.exact k := by
      intro u v same
      rw [← u.exact_blind, same, v.exact_blind]
    have run₁ := (run₀.append upTo).append onward
    have fits : t.grantedBytes < 2 ^ 64 := by
      rw [← t.grantedBytes_blind, ← same', AllocState.grantedBytes_blind]
      exact bounded
    have whole := toNat_counter (run₁.append rest') fits (Counter.notPeak_of_isTotal total)
    have start := exact_bounds run₀ total
    have down := exact_mono run₀ upTo total
    have up := exact_mono (run₀.append upTo) onward total
    have lower := gains_inside_le run₁ rest' total
    have upper := exact_le_overlapping run₀ ((upTo.append onward).append rest') total
    rw [← AllocState.inside_blind, ← same₁, ← same', AllocState.inside_blind] at lower
    rw [← AllocState.gains_overlapping_blind, ← same₀, ← same', AllocState.gains_overlapping_blind]
      at upper
    have exact' := exact same'
    have exact_r := exact same
    have fits' := (t.shared.counters k).isLt
    have changed : (s.shared.counters k).toNat = s.exact k - r.alloc.exact k := by
      rw [value, toNat_intCast]
      omega
    omega
  have count := bounds (k := .allocCount) rfl
  have bytes := bounds (k := .totalBytes) rfl
  rw [gains_allocCount (AllocState.counted_of_inside _ s),
    gains_allocCount (AllocState.counted_of_overlapping _ s)] at count
  exact ⟨count, bytes⟩

/-! One block has been allocated. While a second one is, a `reset` comes between the two
totals: the call has been counted before, its bytes after. Then a third one follows. -/

abbrev ResetEvent := Move (Nat × Request) Answer ⊕ Move Unit Unit

/-- Steps of an allocator call. -/
def callSteps (i n : Nat) : List ResetEvent := List.replicate n (.inl (.act i (.bare 0)))

/-- Steps of a `reset`. -/
def resetSteps (i n : Nat) : List ResetEvent := List.replicate n (.inr (.act i ()))

def earlierEvents : List ResetEvent :=
  .inl (.start (0, .alloc 16)) :: .inl (.act 0 (.bare 0x1000)) :: callSteps 0 10

def tornEvents : List ResetEvent :=
  .inl (.start (1, .alloc 8)) :: .inl (.act 1 (.bare 0x2000)) :: .inr (.start ()) ::
    (callSteps 1 2 ++ resetSteps 0 2 ++ callSteps 1 1 ++ resetSteps 0 4 ++ callSteps 1 6)

def laterMoves : List (Move (Nat × Request) Answer) :=
  .start (0, .alloc 32) :: .act 2 (.bare 0x3000) :: List.replicate 9 (.act 2 (.bare 0))

def beforeReset : ResetState :=
  (beside (allocProgram false raceStatics) resetProgram Tracked ResetState.initial earlierEvents).get
    (by decide)

def afterReset : ResetState :=
  (beside (allocProgram false raceStatics) resetProgram Tracked beforeReset tornEvents).get (by decide)

def afterLater : AllocState :=
  ((allocProgram false raceStatics).run Tracked afterReset.alloc laterMoves).get (by decide)

theorem reset_window_torn :
    (afterReset.alloc.inside afterLater).length ≤ (afterLater.shared.counters .allocCount).toNat ∧
      (afterLater.shared.counters .allocCount).toNat ≤ (beforeReset.alloc.overlapping afterLater).length ∧
      (afterReset.alloc.inside afterLater).length = 1 ∧
      (beforeReset.alloc.overlapping afterLater).length = 2 ∧
      afterLater.shared.counters .allocCount = 1 ∧ afterLater.shared.counters .totalBytes = 40 := by
  have run : ResetRun false raceStatics ResetState.initial _ beforeReset :=
    Beside.of_beside .nil (Option.some_get _).symm
  have during : ResetRun false raceStatics beforeReset _ afterReset :=
    Beside.of_beside .nil (Option.some_get _).symm
  have rest : (allocProgram false raceStatics).Exec Tracked afterReset.alloc laterMoves afterLater :=
    Exec.of_run (Option.some_get _).symm
  obtain ⟨⟨ge, le⟩, _⟩ := reset_window run during (by decide) rest (by decide)
  exact ⟨ge, le, by decide, by decide, by decide, by decide⟩

/-! ## The peaks -/

variable {level peak : Counter}

/-- The next step of the call takes more from the counter than is there. -/
def AllocCall.borrows (level : Counter) (w : AllocWorld) (c : AllocCall) : Bool :=
  match c.pc with
  | .update (.fetchSub k n) _ _ => k = level && w.counters level < n
  | _ => false

/-- Nothing is taken from the counter that is not there. -/
def Solvent (level : Counter) (s : AllocState) : Move (Nat × Request) Answer → Prop
  | .start _ => True
  | .act i _ => ∀ c ∈ s.procs[i]?, c.borrows level s.shared = false

instance (level : Counter) (s : AllocState) : ∀ m, Decidable (Solvent level s m)
  | .start _ => .isTrue trivial
  | .act i _ => inferInstanceAs (Decidable (∀ c ∈ s.procs[i]?, c.borrows level s.shared = false))

/-- The counter is not above its peak, or not above what a call is about to raise the peak
to. -/
def AllocState.Marked (level peak : Counter) (s : AllocState) : Prop :=
  (s.shared.counters level).toNat ≤ (s.shared.counters peak).toNat ∨
    ∃ (i : Nat) (c : AllocCall) (v : Nat), s.procs[i]? = some c ∧ c.announced peak = some v ∧
      (s.shared.counters level).toNat ≤ v

/-- A step that takes no more than is there lowers the counter, or announces it. -/
theorem AllocCall.Trans.announces_or_le (peakOf : PeakOf level peak)
    (trans : AllocCall.Trans backtraces st w c w' c') (progress : c.Progress)
    (solvent : c.borrows level w = false) :
    (w'.counters level).toNat ≤ (w.counters level).toNat ∨
      c'.announced peak = some (w'.counters level).toNat := by
  cases trans with
  | @update u rest old pc =>
      obtain ⟨aimed, pair⟩ := update_place progress pc
      cases u with
      | fetchMax k n =>
          have other : level ≠ k := by
            rintro rfl
            exact absurd (peakOf.notPeak.symm.trans aimed) (by decide)
          exact .inl (congrArg BitVec.toNat (Function.update_of_ne other ..)).le
      | fetchAdd k n =>
          by_cases same : level = k
          · subst same
            refine .inr (announced_withUpdates.mpr ⟨n, (pair peakOf n).mpr rfl, ?_⟩)
            simp only [Update.exec, Function.update_self]
          · exact .inl (congrArg BitVec.toNat (Function.update_of_ne same ..)).le
      | fetchSub k n =>
          by_cases same : level = k
          · subst same
            simp only [borrows, pc, decide_true, Bool.true_and, decide_eq_false_iff_not,
              BitVec.not_lt] at solvent
            refine .inl ?_
            simp only [Update.exec, Function.update_self, BitVec.toNat_sub_of_le solvent, Nat.sub_le]
          · exact .inl (congrArg BitVec.toNat (Function.update_of_ne same ..)).le
  | _ => exact .inl le_rfl

/-- A step does not lower the peak, and raises it to what was announced. -/
theorem AllocCall.Trans.peak_ge (isPeak : peak.isPeak = true)
    (trans : AllocCall.Trans backtraces st w c w' c') (progress : c.Progress) :
    (w.counters peak).toNat ≤ (w'.counters peak).toNat ∧
      ∀ v, c.announced peak = some v → v ≤ (w'.counters peak).toNat := by
  rcases trans.peak isPeak progress with ⟨same, none⟩ | ⟨u, own, raised⟩
  · refine ⟨(congrArg BitVec.toNat same).ge, fun v announced => ?_⟩
    rw [none] at announced
    cases announced
  · rw [raised]
    split
    case isTrue less =>
        exact ⟨Nat.le_of_lt less, fun v announced => (Option.some.inj (own.symm.trans announced)).ge⟩
    case isFalse notLess =>
        refine ⟨le_rfl, fun v announced => ?_⟩
        obtain rfl := Option.some.inj (own.symm.trans announced)
        exact BitVec.not_lt.mp notLess

theorem marked_step (peakOf : PeakOf level peak) (numbered : s.Numbered)
    {m : Move (Nat × Request) Answer} (solvent : Solvent level s m)
    (stepped : (allocProgram backtraces st).step s m = some s') (marked : s.Marked level peak) :
    AllocState.Marked level peak s' := by
  cases m with
  | start arg =>
      obtain ⟨w, c, started, rfl⟩ := step_start stepped
      obtain ⟨rfl, rfl⟩ := allocProgram_start started
      refine marked.imp_right ?_
      rintro ⟨i, d, v, at_i, announced, le⟩
      refine ⟨i, d, v, ?_, announced, le⟩
      rw [List.getElem?_append_left (List.getElem?_eq_some_iff.mp at_i).1, at_i]
  | act i a =>
      obtain ⟨c, w, c', at_i, acted, rfl⟩ := step_act stepped
      have trans := (allocProgram_act acted).2
      have progress := (numbered.wellFormed i c at_i).progress
      have raises := trans.peak_ge peakOf.isPeak progress
      rcases trans.announces_or_le peakOf progress (solvent c at_i) with lower | announced
      · rcases marked with le | ⟨j, d, v, at_j, announced, le⟩
        · exact .inl (lower.trans (le.trans raises.1))
        · by_cases same : i = j
          · subst same
            obtain rfl : c = d := Option.some.inj (at_i.symm.trans at_j)
            exact .inl (lower.trans (le.trans (raises.2 v announced)))
          · exact .inr ⟨j, d, v, by rw [List.getElem?_set_ne same, at_j], announced, lower.trans le⟩
      · exact .inr ⟨i, c', _, List.getElem?_set_self (List.getElem?_eq_some_iff.mp at_i).1,
          announced, le_rfl⟩

/-- Where a `reset` sets the peak before the counter, its stores leave the counter marked,
or about to be set. -/
theorem marked_reset (before : ∀ r : ResetPc, peak ∈ r.ahead → level ∈ r.ahead) {rs : List ResetPc}
    {n : Move Unit Unit} {p : Pool AllocWorld ResetPc}
    (stepped : resetProgram.step ⟨s.shared, rs⟩ n = some p)
    (sofar : (∃ r ∈ rs, level ∈ r.ahead) ∨ s.Marked level peak) :
    (∃ r ∈ p.procs, level ∈ r.ahead) ∨ AllocState.Marked level peak ⟨p.shared, s.procs⟩ := by
  rcases resetProgram_step stepped with ⟨_, begun⟩ | ⟨i, k, at_i, gone, stored⟩
  · refine .inl ⟨.store .allocCount, ?_, ResetPc.mem_ahead_allocCount level⟩
    exact begun ▸ List.mem_append_right _ (List.mem_singleton_self _)
  by_cases own : level = k
  · subst own
    refine .inr (.inl ?_)
    simp only [stored, Function.update_self]
    exact Nat.zero_le _
  by_cases later : level ∈ (ResetPc.next k).ahead
  · refine .inl ⟨.next k, ?_, later⟩
    exact gone ▸ List.mem_of_getElem? (List.getElem?_set_self (List.getElem?_eq_some_iff.mp at_i).1)
  -- this `reset` has set the counter before, and so the peak
  have past : level ∉ (ResetPc.store k).ahead := by
    rw [ResetPc.ahead_store, List.mem_cons, not_or]
    exact ⟨own, later⟩
  have other : peak ≠ k := by
    rintro rfl
    exact past (before _ (ResetPc.ahead_store peak ▸ List.mem_cons_self))
  rcases sofar with ⟨r, inResets, isAhead⟩ | marked
  · obtain ⟨j, at_j⟩ := mem_procs_iff.mp inResets
    have apart : i ≠ j := by
      rintro rfl
      exact past (Option.some.inj (at_i.symm.trans at_j) ▸ isAhead)
    exact .inl ⟨r, mem_procs_iff.mpr ⟨j, by rw [gone, List.getElem?_set_ne apart, at_j]⟩, isAhead⟩
  · refine .inr ?_
    simp only [AllocState.Marked, stored, Function.update_of_ne own, Function.update_of_ne other]
    exact marked

/-- **A peak that is set before its counter stays a peak**, however the resets race. -/
theorem marked_of_resets (peakOf : PeakOf level peak)
    (before : ∀ r : ResetPc, peak ∈ r.ahead → level ∈ r.ahead) {b : ResetState}
    (run : Beside (allocProgram backtraces st) resetProgram (Solvent level) ResetState.initial moves b) :
    (∃ r ∈ b.others, level ∈ r.ahead) ∨ b.alloc.Marked level peak := by
  refine (Beside.invariant (fun b : ResetState => b.alloc.Numbered ∧
    ((∃ r ∈ b.others, level ∈ r.ahead) ∨ b.alloc.Marked level peak)) ?_ ?_ run
      ⟨.initial, .inr (.inl le_rfl)⟩).2
  · rintro b m s ⟨numbered, sofar⟩ solvent stepped
    exact ⟨numbered.step stepped, sofar.imp_right (marked_step peakOf numbered solvent stepped)⟩
  · rintro b n t ⟨numbered, sofar⟩ stepped
    exact ⟨numbered_step numbered stepped, marked_reset before stepped sofar⟩

def liveEvents : List ResetEvent :=
  .inr (.start ()) :: resetSteps 0 5 ++
    (.inl (.start (0, .alloc 8)) :: .inl (.act 0 (.bare 0x1000)) :: callSteps 0 10) ++
    (.inl (.start (0, .alloc 4)) :: .inl (.act 1 (.bare 0x2000)) :: callSteps 1 9) ++
    (.inl (.start (0, .dealloc ⟨0x2000, 4⟩)) :: callSteps 2 5) ++ resetSteps 0 1

def liveEnd : ResetState :=
  (beside (allocProgram false raceStatics) resetProgram (Solvent .currentBytes) ResetState.initial
    liveEvents).get (by decide)

end ModAlloc
