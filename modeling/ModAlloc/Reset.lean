import ModAlloc.Counters

/-!
# Counters across `reset`

Single-threaded runs of `record_alloc`, `record_dealloc` and `record_realloc` on
real blocks, with `reset` at any point. `reset` zeroes `live_count` with the
other counters, so freeing a block from before the reset takes it below zero, and
a peak update on a wrapped `current_bytes` records the wrapped value.

`sane_iff_allowsAll` says exactly which runs are free of this: no deallocation
may come when as many blocks have been freed as allocated since the reset, and
no allocation or growing reallocation when more bytes have been freed than added.
-/

namespace ModAlloc

/-- One call, with the sizes of its layout. -/
inductive Event where
  | alloc (size : U64)
  | dealloc (size : U64)
  | realloc (oldSize newSize : U64)
  | reset
deriving DecidableEq, Repr

namespace Event

/-- The bytes the call asks for. -/
def requested : Event → Nat
  | .alloc size => size.toNat
  | .realloc _ newSize => newSize.toNat
  | _ => 0

/-- One for an allocation event. -/
def counted : Event → Nat
  | .alloc _ | .realloc _ _ => 1
  | _ => 0

/-- One for a new block. -/
def allocated : Event → Nat
  | .alloc _ => 1
  | _ => 0

/-- One for a freed block. -/
def freed : Event → Nat
  | .dealloc _ => 1
  | _ => 0

/-- The bytes by which the live blocks grow. -/
def addedBytes : Event → Nat
  | .alloc size => size.toNat
  | .realloc oldSize newSize => newSize.toNat - oldSize.toNat
  | _ => 0

/-- The bytes by which the live blocks shrink. -/
def freedBytes : Event → Nat
  | .dealloc size => size.toNat
  | .realloc oldSize newSize => oldSize.toNat - newSize.toNat
  | _ => 0

end Event

/-- `sum f es`: `f` added up over events. -/
def Event.sum (f : Event → Nat) (es : List Event) : Nat := (es.map f).sum

@[simp] theorem Event.sum_nil (f : Event → Nat) : Event.sum f [] = 0 := rfl

@[simp] theorem Event.sum_concat (f : Event → Nat) (es : List Event) (e : Event) :
    Event.sum f (es ++ [e]) = Event.sum f es + f e := by
  simp only [Event.sum, List.map_append, List.map_cons, List.map_nil, List.sum_append,
    List.sum_cons, List.sum_nil, Nat.add_zero]

/-- The counters, the sizes of the live blocks, and the events since the last
`reset`. -/
structure Session where
  counters : Counters
  live : List U64
  since : List Event

namespace Session

def new : Session := ⟨Counters.new, [], []⟩

/-- The counter updates of an event; `reset` has none, it stores zeros. -/
def updates : Event → List Update
  | .alloc size => recordAlloc size
  | .dealloc size => recordDealloc size
  | .realloc oldSize newSize => recordRealloc oldSize newSize
  | .reset => []

/-- The blocks after an event; sizes are not zero, and only a live block is freed
or resized. -/
def blocks (live : List U64) : Event → Option (List U64)
  | .alloc size => if size = 0 then none else some (size :: live)
  | .dealloc size => if size ∈ live then some (live.erase size) else none
  | .realloc oldSize newSize =>
      if newSize = 0 then none
      else if oldSize ∈ live then some (newSize :: live.erase oldSize) else none
  | .reset => some live

def step (s : Session) (e : Event) : Option Session :=
  (blocks s.live e).map fun live =>
    match e with
    | .reset => { counters := Counters.new, live, since := [] }
    | e => { counters := s.counters.apply (updates e), live, since := s.since ++ [e] }

/-- The session after a run of events; `none` where one is not possible. -/
def after (es : List Event) : Option Session := es.foldlM step new

theorem after_concat (es : List Event) (e : Event) :
    after (es ++ [e]) = (after es).bind fun s => s.step e := by
  simp only [after, List.foldlM_append, List.foldlM_cons, List.foldlM_nil, bind_pure]
  rfl

/-- The counters describe what has happened since the last `reset`. -/
structure Describes (s : Session) : Prop where
  allocCount : (s.counters .allocCount).toNat = Event.sum Event.counted s.since
  totalBytes : (s.counters .totalBytes).toNat = Event.sum Event.addedBytes s.since
  live_le_peak : s.counters .liveCount ≤ s.counters .peakLiveCount
  peak_le_count : s.counters .peakLiveCount ≤ s.counters .allocCount
  peak_le_total : s.counters .peakBytes ≤ s.counters .totalBytes

/-- The plain additions of the event stay below `2 ^ 64`. -/
def NoOverflow (s : Session) (e : Event) : Prop :=
  ∀ x ∈ plainSums (s.counters, 0) (updates e), x < 2 ^ 64

/-- Since the last `reset` enough blocks, or bytes, have been allocated for the
event. -/
def Allows (s : Session) : Event → Prop
  | .alloc _ => Event.sum Event.freedBytes s.since ≤ Event.sum Event.addedBytes s.since
  | .dealloc _ => Event.sum Event.freed s.since < Event.sum Event.allocated s.since
  | .realloc oldSize newSize => oldSize < newSize →
      Event.sum Event.freedBytes s.since ≤ Event.sum Event.addedBytes s.since
  | .reset => True

/-! ## The exact value of every counter -/

/-- The counters in terms of the events since the last `reset`, where no step has
gone wrong: only `current_bytes` may have wrapped. -/
structure Exact (s : Session) : Prop where
  allocCount : (s.counters .allocCount).toNat = Event.sum Event.counted s.since
  totalBytes : (s.counters .totalBytes).toNat = Event.sum Event.addedBytes s.since
  currentBytes :
    (s.counters .currentBytes).toNat + Event.sum Event.freedBytes s.since =
      Event.sum Event.addedBytes s.since ∨
    (Event.sum Event.addedBytes s.since < Event.sum Event.freedBytes s.since ∧
      (s.counters .currentBytes).toNat + Event.sum Event.freedBytes s.since =
        Event.sum Event.addedBytes s.since + 2 ^ 64)
  liveCount : (s.counters .liveCount).toNat + Event.sum Event.freed s.since =
    Event.sum Event.allocated s.since
  live_le_peak : (s.counters .liveCount).toNat ≤ (s.counters .peakLiveCount).toNat
  peak_le_count : (s.counters .peakLiveCount).toNat ≤ Event.sum Event.allocated s.since
  peak_le_total : (s.counters .peakBytes).toNat ≤ Event.sum Event.addedBytes s.since

/-- All sums are bounded by the bytes requested in the run so far. -/
structure Bounded (s : Session) (n : Nat) : Prop where
  counted : Event.sum Event.counted s.since ≤ n
  allocated : Event.sum Event.allocated s.since ≤ Event.sum Event.counted s.since
  added : Event.sum Event.addedBytes s.since ≤ n
  freed : Event.sum Event.freedBytes s.since + (s.live.map BitVec.toNat).sum ≤ n

variable {s s' : Session} {e : Event} {n : Nat}

theorem Exact.new : new.Exact :=
  ⟨rfl, rfl, .inl rfl, rfl, Nat.le_refl _, Nat.le_refl _, Nat.le_refl _⟩

theorem Bounded.new : new.Bounded 0 := ⟨Nat.le_refl _, Nat.le_refl _, Nat.le_refl _, Nat.le_refl _⟩

theorem Exact.describes (exact : s.Exact) (bounded : s.Bounded n) : s.Describes where
  allocCount := exact.allocCount
  totalBytes := exact.totalBytes
  live_le_peak := exact.live_le_peak
  peak_le_count := by
    rw [BitVec.le_def, exact.allocCount]
    exact Nat.le_trans exact.peak_le_count bounded.allocated
  peak_le_total := by
    rw [BitVec.le_def, exact.totalBytes]
    exact exact.peak_le_total

theorem sum_erase {live : List U64} {size : U64} (isLive : size ∈ live) :
    ((live.erase size).map BitVec.toNat).sum + size.toNat = (live.map BitVec.toNat).sum := by
  have moved := (List.perm_cons_erase isLive).map BitVec.toNat
  rw [moved.sum_eq, List.map_cons, List.sum_cons, Nat.add_comm]

/-- What a step needs and what it leads to. -/
theorem step_cases (stepped : s.step e = some s') :
    (∃ size, e = .alloc size ∧ size.toNat ≠ 0 ∧
      s' = ⟨s.counters.apply (recordAlloc size), size :: s.live, s.since ++ [e]⟩) ∨
    (∃ size, e = .dealloc size ∧ size ∈ s.live ∧
      s' = ⟨s.counters.apply (recordDealloc size), s.live.erase size, s.since ++ [e]⟩) ∨
    (∃ oldSize newSize, e = .realloc oldSize newSize ∧ newSize.toNat ≠ 0 ∧ oldSize ∈ s.live ∧
      s' = ⟨s.counters.apply (recordRealloc oldSize newSize), newSize :: s.live.erase oldSize,
        s.since ++ [e]⟩) ∨
    (e = .reset ∧ s' = ⟨Counters.new, s.live, []⟩) := by
  have nonzero : ∀ {w : U64}, w ≠ 0 → w.toNat ≠ 0 := by
    intro w ne zero
    exact ne (BitVec.eq_of_toNat_eq zero)
  obtain ⟨live, possible, rfl⟩ := Option.map_eq_some_iff.mp stepped
  unfold blocks at possible
  cases e with
  | alloc size =>
      dsimp only at possible
      split at possible
      · cases possible
      · cases possible
        exact .inl ⟨size, rfl, nonzero ‹_›, rfl⟩
  | dealloc size =>
      dsimp only at possible
      split at possible
      · cases possible
        exact .inr (.inl ⟨size, rfl, ‹_›, rfl⟩)
      · cases possible
  | realloc oldSize newSize =>
      dsimp only at possible
      split at possible
      · cases possible
      · split at possible
        · cases possible
          exact .inr (.inr (.inl ⟨oldSize, newSize, rfl, nonzero ‹_›, ‹_›, rfl⟩))
        · cases possible
  | reset =>
      cases possible
      exact .inr (.inr (.inr ⟨rfl, rfl⟩))

theorem Bounded.step (bounded : s.Bounded n) (stepped : s.step e = some s') :
    s'.Bounded (n + e.requested) := by
  obtain ⟨counted, allocated, added, freed⟩ := bounded
  rcases step_cases stepped with ⟨size, rfl, nonzero, rfl⟩ | ⟨size, rfl, isLive, rfl⟩ |
    ⟨oldSize, newSize, rfl, nonzero, isLive, rfl⟩ | ⟨rfl, rfl⟩
  · refine ⟨?_, ?_, ?_, ?_⟩ <;>
      simp only [Event.sum_concat, Event.counted, Event.allocated, Event.addedBytes,
        Event.freedBytes, Event.requested, List.map_cons, List.sum_cons] <;> omega
  · have erased := sum_erase isLive
    refine ⟨?_, ?_, ?_, ?_⟩ <;>
      simp only [Event.sum_concat, Event.counted, Event.allocated, Event.addedBytes,
        Event.freedBytes, Event.requested] <;> omega
  · have erased := sum_erase isLive
    refine ⟨?_, ?_, ?_, ?_⟩ <;>
      simp only [Event.sum_concat, Event.counted, Event.allocated, Event.addedBytes,
        Event.freedBytes, Event.requested, List.map_cons, List.sum_cons] <;> omega
  · refine ⟨?_, ?_, ?_, ?_⟩ <;> simp only [Event.sum_nil, Event.requested] <;> omega

theorem toNat_one : (1 : U64).toNat = 1 := rfl

/-- The peak after a `fetch_max`. -/
theorem toNat_fetchMax (peak new : U64) :
    (if peak < new then new else peak).toNat = max peak.toNat new.toNat := by
  split
  · have less := BitVec.lt_def.mp ‹_›
    omega
  · have notLess := mt BitVec.lt_def.mpr ‹_›
    omega

/-- The growth of a growing reallocation. -/
theorem toNat_sub_of_lt {x y : U64} (less : x < y) : (y - x).toNat = y.toNat - x.toNat := by
  have := BitVec.lt_def.mp less
  have := y.isLt
  rw [BitVec.toNat_sub]
  omega

/-- **A step that the history allows keeps every counter exact.** -/
theorem Exact.step (exact : s.Exact) (bounded : s.Bounded n) (small : n + e.requested < 2 ^ 63)
    (allows : s.Allows e) (stepped : s.step e = some s') : s'.Exact := by
  obtain ⟨count, total, current, live, livePeak, peakCount, peakTotal⟩ := exact
  obtain ⟨counted, allocated, added, freed⟩ := bounded
  rcases step_cases stepped with ⟨size, rfl, nonzero, rfl⟩ | ⟨size, rfl, isLive, rfl⟩ |
    ⟨oldSize, newSize, rfl, nonzero, isLive, rfl⟩ | ⟨rfl, rfl⟩
  · simp only [Allows] at allows
    simp only [Event.requested] at small
    rw [recordAlloc_apply]
    refine ⟨?_, ?_, ?_, ?_, ?_, ?_, ?_⟩ <;>
      simp only [Event.sum_concat, Event.counted, Event.addedBytes, Event.freedBytes,
        Event.allocated, Event.freed, toNat_fetchMax, BitVec.toNat_add, toNat_one] <;>
      omega
  · simp only [Allows] at allows
    rw [recordDealloc_apply]
    have erased := sum_erase isLive
    refine ⟨?_, ?_, ?_, ?_, ?_, ?_, ?_⟩ <;>
      simp only [Event.sum_concat, Event.counted, Event.addedBytes, Event.freedBytes,
        Event.allocated, Event.freed, BitVec.toNat_sub, toNat_one] <;>
      omega
  · simp only [Event.requested] at small
    have erased := sum_erase isLive
    by_cases grows : oldSize < newSize
    · have := allows grows
      have := BitVec.lt_def.mp grows
      rw [recordRealloc_apply_of_lt _ grows]
      refine ⟨?_, ?_, ?_, ?_, ?_, ?_, ?_⟩ <;>
        simp only [Event.sum_concat, Event.counted, Event.addedBytes, Event.freedBytes,
          Event.allocated, Event.freed, toNat_fetchMax, BitVec.toNat_add, toNat_one,
          toNat_sub_of_lt grows] <;>
        omega
    · have shrinks := BitVec.not_lt.mp grows
      have := BitVec.le_def.mp shrinks
      rw [recordRealloc_apply_of_le _ shrinks]
      refine ⟨?_, ?_, ?_, ?_, ?_, ?_, ?_⟩ <;>
        simp only [Event.sum_concat, Event.counted, Event.addedBytes, Event.freedBytes,
          Event.allocated, Event.freed, BitVec.toNat_add, BitVec.toNat_sub, toNat_one] <;>
        omega
  · exact ⟨rfl, rfl, .inl rfl, rfl, Nat.le_refl _, Nat.le_refl _, Nat.le_refl _⟩

/-- An allowed event makes no addition that overflows. -/
theorem Exact.noOverflow (exact : s.Exact) (bounded : s.Bounded n)
    (small : n + e.requested < 2 ^ 63) (allows : s.Allows e) : s.NoOverflow e := by
  obtain ⟨count, total, current, live, livePeak, peakCount, peakTotal⟩ := exact
  obtain ⟨counted, allocated, added, freed⟩ := bounded
  unfold NoOverflow
  cases e with
  | alloc size =>
      simp only [Allows] at allows
      simp only [Event.requested] at small
      simp only [updates, plainSums_recordAlloc, List.mem_cons, List.not_mem_nil, or_false,
        forall_eq_or_imp, forall_eq]
      omega
  | dealloc size =>
      simp only [updates, plainSums_recordDealloc, List.not_mem_nil, false_implies, implies_true]
  | realloc oldSize newSize =>
      simp only [Event.requested] at small
      by_cases grows : oldSize < newSize
      · have := allows grows
        simp only [updates, plainSums_recordRealloc_of_lt _ grows, List.mem_singleton, forall_eq,
          toNat_sub_of_lt grows]
        omega
      · simp only [updates, plainSums_recordRealloc_of_le _ (BitVec.not_lt.mp grows),
          List.not_mem_nil, false_implies, implies_true]
  | reset => simp only [updates, plainSums, List.not_mem_nil, false_implies, implies_true]

/-- **A step that the history does not allow goes wrong at once**: an addition
overflows, or the state after it does not describe its history. -/
theorem Exact.breaks (exact : s.Exact) (bounded : s.Bounded n)
    (small : n + e.requested < 2 ^ 63) (wrong : ¬ s.Allows e) (stepped : s.step e = some s')
    (noOverflow : s.NoOverflow e) : ¬ s'.Describes := by
  obtain ⟨count, total, current, live, livePeak, peakCount, peakTotal⟩ := exact
  obtain ⟨counted, allocated, added, freed⟩ := bounded
  rintro ⟨_, total', live', _, peak'⟩
  unfold NoOverflow at noOverflow
  rcases step_cases stepped with ⟨size, rfl, nonzero, rfl⟩ | ⟨size, rfl, isLive, rfl⟩ |
    ⟨oldSize, newSize, rfl, nonzero, isLive, rfl⟩ | ⟨rfl, rfl⟩
  · -- the new current value is above `2 ^ 63`, and becomes the peak
    simp only [Allows] at wrong
    simp only [Event.requested] at small
    simp only [updates, plainSums_recordAlloc, List.mem_cons, List.not_mem_nil, or_false,
      forall_eq_or_imp, forall_eq] at noOverflow
    rw [BitVec.le_def, total', recordAlloc_apply] at peak'
    simp only [Event.sum_concat, Event.addedBytes, toNat_fetchMax, BitVec.toNat_add] at peak'
    omega
  · -- `live_count` was zero and wraps
    simp only [Allows] at wrong
    rw [BitVec.le_def, recordDealloc_apply] at live'
    simp only [BitVec.toNat_sub, toNat_one] at live'
    omega
  · simp only [Allows, Classical.not_imp] at wrong
    obtain ⟨grows, wrong⟩ := wrong
    simp only [Event.requested] at small
    simp only [updates, plainSums_recordRealloc_of_lt _ grows, List.mem_singleton, forall_eq,
      toNat_sub_of_lt grows] at noOverflow
    rw [BitVec.le_def, total', recordRealloc_apply_of_lt _ grows] at peak'
    simp only [Event.sum_concat, Event.addedBytes, toNat_fetchMax, BitVec.toNat_add,
      toNat_sub_of_lt grows] at peak'
    omega
  · exact wrong trivial

/-! ## Runs -/

variable {es : List Event}

theorem bounded_of_after (reached : after es = some s) :
    s.Bounded (Event.sum Event.requested es) := by
  induction es using List.reverseRecOn generalizing s with
  | nil =>
      cases reached
      exact Bounded.new
  | append_singleton es e ih =>
      rw [after_concat] at reached
      obtain ⟨s₁, before, stepped⟩ := Option.bind_eq_some_iff.mp reached
      rw [Event.sum_concat]
      exact (ih before).step stepped

/-- Every step of the run is allowed by the history before it. -/
def AllowsAll (es : List Event) : Prop :=
  ∀ pre e, pre ++ [e] <+: es → ∀ s ∈ after pre, s.Allows e

theorem exact_of_allows (small : Event.sum Event.requested es < 2 ^ 63) (allows : AllowsAll es)
    (reached : after es = some s) : s.Exact := by
  induction es using List.reverseRecOn generalizing s with
  | nil =>
      cases reached
      exact Exact.new
  | append_singleton es e ih =>
      rw [after_concat] at reached
      obtain ⟨s₁, before, stepped⟩ := Option.bind_eq_some_iff.mp reached
      rw [Event.sum_concat] at small
      have exact₁ := ih (by omega)
        (fun pre e' isPrefix => allows pre e' (isPrefix.trans (List.prefix_append _ _))) before
      exact exact₁.step (bounded_of_after before) small
        (allows es e (List.prefix_rfl) s₁ before) stepped

theorem sum_le_of_start {pre : List Event} (f : Event → Nat) (isPrefix : pre <+: es) :
    Event.sum f pre ≤ Event.sum f es := by
  obtain ⟨rest, rfl⟩ := isPrefix
  simp only [Event.sum, List.map_append, List.sum_append, Nat.le_add_right]

/-- The counters describe the activity since the last `reset` in every state of
the run, and no plain addition on the way overflows. -/
def Sane (es : List Event) : Prop :=
  (∀ pre, pre <+: es → ∀ s ∈ after pre, s.Describes) ∧
    ∀ pre e, pre ++ [e] <+: es → ∀ s ∈ after pre, s.NoOverflow e

theorem isSome_of_start {pre : List Event} (isPrefix : pre <+: es)
    (possible : (after es).isSome) : (after pre).isSome := by
  obtain ⟨rest, rfl⟩ := isPrefix
  rw [after, List.foldlM_append] at possible
  rw [after]
  cases reached : pre.foldlM step new with
  | none => simp [reached] at possible
  | some s => rfl

theorem AllowsAll.of_start {pre : List Event} (allows : AllowsAll es) (isPrefix : pre <+: es) :
    AllowsAll pre :=
  fun p e isPrefix' => allows p e (isPrefix'.trans isPrefix)

theorem sane_of_allowsAll (small : Event.sum Event.requested es < 2 ^ 63)
    (allows : AllowsAll es) : Sane es := by
  have exactAt : ∀ {pre s}, pre <+: es → after pre = some s → s.Exact := by
    intro pre s isPrefix reached
    exact exact_of_allows (Nat.lt_of_le_of_lt (sum_le_of_start _ isPrefix) small)
      (allows.of_start isPrefix) reached
  refine ⟨fun pre isPrefix s reached => ?_, fun pre e isPrefix s reached => ?_⟩
  · exact (exactAt isPrefix reached).describes (bounded_of_after reached)
  · have within := Nat.lt_of_le_of_lt (sum_le_of_start Event.requested isPrefix) small
    rw [Event.sum_concat] at within
    exact (exactAt ((List.prefix_append _ _).trans isPrefix) reached).noOverflow
      (bounded_of_after reached) within (allows pre e isPrefix s reached)

theorem allowsAll_of_sane (possible : (after es).isSome)
    (small : Event.sum Event.requested es < 2 ^ 63) (sane : Sane es) : AllowsAll es := by
  obtain ⟨describes, noOverflow⟩ := sane
  have upTo : ∀ pre, pre <+: es → AllowsAll pre := by
    intro pre
    induction pre using List.reverseRecOn with
    | nil =>
        intro _ p e isPrefix
        exact absurd (List.prefix_nil.mp isPrefix) (List.append_ne_nil_of_right_ne_nil _ (by simp))
    | append_singleton pre e ih =>
        intro isPrefix p e' isPrefix' s reached
        have earlier := ih ((List.prefix_append _ _).trans isPrefix)
        rcases List.prefix_concat_iff.mp isPrefix' with same | shorter
        · obtain ⟨rfl, last⟩ := List.append_inj' same rfl
          cases last
          by_contra wrong
          obtain ⟨s', stepped⟩ := Option.isSome_iff_exists.mp (isSome_of_start isPrefix possible)
          have within := Nat.lt_of_le_of_lt (sum_le_of_start Event.requested isPrefix) small
          rw [Event.sum_concat] at within
          have next : s.step e = some s' := by
            rw [after_concat, reached] at stepped
            exact stepped
          exact (exact_of_allows (by omega) earlier reached).breaks (bounded_of_after reached)
            within wrong next (noOverflow p e isPrefix s reached) (describes _ isPrefix s' stepped)
        · exact earlier p e' shorter s reached
  exact upTo es List.prefix_rfl

/-- **Runs with `reset` are sane just when every step is allowed.** -/
theorem sane_iff_allowsAll (possible : (after es).isSome)
    (small : Event.sum Event.requested es < 2 ^ 63) : Sane es ↔ AllowsAll es :=
  ⟨allowsAll_of_sane possible small, sane_of_allowsAll small⟩

/-- A block outlives a `reset` that comes between two other blocks of its size. -/
def resetRun : List Event := [.alloc 8, .reset, .alloc 8, .realloc 8 16, .dealloc 8]

theorem sane_iff_allowsAll_resetRun : Sane resetRun ↔ AllowsAll resetRun :=
  sane_iff_allowsAll (by decide) (by decide)

/-- Freeing a block from before the `reset`. -/
def lateFree : List Event := [.alloc 8, .reset, .dealloc 8]

/-- `live_count` wraps below zero when a block from before the `reset` is freed. -/
theorem not_sane_lateFree :
    ¬ ∀ es, (after es).isSome → Event.sum Event.requested es < 2 ^ 63 → Sane es := by
  intro always
  obtain ⟨s, reached⟩ := Option.isSome_iff_exists.mp (by decide : (after lateFree).isSome)
  have describes := (always lateFree (by decide) (by decide)).1 lateFree List.prefix_rfl s reached
  have wrapped : (after lateFree).map (fun s => (s.counters .liveCount, s.counters .peakLiveCount)) =
      some (0xFFFFFFFFFFFFFFFF, 0) := by decide
  rw [reached, Option.map_some, Option.some.injEq, Prod.mk.injEq] at wrapped
  have := describes.live_le_peak
  rw [wrapped.1, wrapped.2] at this
  exact absurd this (by decide)

end Session

end ModAlloc
