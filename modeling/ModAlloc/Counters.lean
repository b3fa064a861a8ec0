import ModAlloc.Basic

/-!
# The Tier 1 counters

The six `AtomicU64` fields of `ModAlloc`, and `record_alloc`, `record_dealloc`
and `record_realloc` as the atomic updates they make, in order. `Update.exec`
gives one update its effect, so that the updates of several calls can be
interleaved; `Counters.apply` runs them one after the other.
-/

namespace ModAlloc

/-- The fields of `ModAlloc`. -/
inductive Counter where
  | allocCount
  | totalBytes
  | peakBytes
  | currentBytes
  | liveCount
  | peakLiveCount
deriving DecidableEq, Repr

abbrev Counters := Counter → U64

/-- `ModAlloc::new`, and what `ModAlloc::reset` leaves behind. -/
def Counters.new : Counters := fun _ => 0

/-- One atomic operation on a counter. `fetchMax c n` raises `c` to `old + n`, a
plain addition on `old`, the value that the last `fetch_add` returned. -/
inductive Update where
  | fetchAdd (c : Counter) (n : U64)
  | fetchSub (c : Counter) (n : U64)
  | fetchMax (c : Counter) (n : U64)
deriving DecidableEq, Repr

/-- The counters, and the value the last `fetch_add` of the running call returned. -/
abbrev Update.State := Counters × U64

def Update.exec (s : Update.State) : Update → Update.State
  | .fetchAdd c n => (Function.update s.1 c (s.1 c + n), s.1 c)
  | .fetchSub c n => (Function.update s.1 c (s.1 c - n), s.2)
  | .fetchMax c n =>
      let new := s.2 + n
      (Function.update s.1 c (if s.1 c < new then new else s.1 c), s.2)

/-- The value of the plain addition in an update, before it is cut to 64 bits. -/
def Update.plainSum (s : Update.State) : Update → Option Nat
  | .fetchMax _ n => some (s.2.toNat + n.toNat)
  | _ => none

def recordAlloc (size : U64) : List Update :=
  [.fetchAdd .allocCount 1, .fetchAdd .totalBytes size, .fetchAdd .currentBytes size,
    .fetchMax .peakBytes size, .fetchAdd .liveCount 1, .fetchMax .peakLiveCount 1]

def recordDealloc (size : U64) : List Update :=
  [.fetchSub .currentBytes size, .fetchSub .liveCount 1]

def recordRealloc (oldSize newSize : U64) : List Update :=
  .fetchAdd .allocCount 1 ::
    if oldSize < newSize then
      let delta := newSize - oldSize
      [.fetchAdd .totalBytes delta, .fetchAdd .currentBytes delta, .fetchMax .peakBytes delta]
    else if newSize < oldSize then [.fetchSub .currentBytes (oldSize - newSize)]
    else []

/-- The updates of one call without interference. -/
def Counters.apply (v : Counters) (us : List Update) : Counters := (us.foldl Update.exec (v, 0)).1

/-- The values of the plain additions in a list of updates. -/
def plainSums : Update.State → List Update → List Nat
  | _, [] => []
  | s, u :: us => (u.plainSum s).toList ++ plainSums (u.exec s) us

/-! ## What each call does to each counter -/

section Apply

variable (v : Counters) (size oldSize newSize : U64)

theorem recordAlloc_apply : v.apply (recordAlloc size) = fun
    | .allocCount => v .allocCount + 1
    | .totalBytes => v .totalBytes + size
    | .currentBytes => v .currentBytes + size
    | .peakBytes =>
        if v .peakBytes < v .currentBytes + size then v .currentBytes + size else v .peakBytes
    | .liveCount => v .liveCount + 1
    | .peakLiveCount =>
        if v .peakLiveCount < v .liveCount + 1 then v .liveCount + 1 else v .peakLiveCount := by
  funext c
  cases c <;> rfl

theorem plainSums_recordAlloc : plainSums (v, 0) (recordAlloc size) =
    [(v .currentBytes).toNat + size.toNat, (v .liveCount).toNat + 1] := rfl

theorem recordDealloc_apply : v.apply (recordDealloc size) = fun
    | .currentBytes => v .currentBytes - size
    | .liveCount => v .liveCount - 1
    | c => v c := by
  funext c
  cases c <;> rfl

theorem plainSums_recordDealloc : plainSums (v, 0) (recordDealloc size) = [] := rfl

variable {oldSize newSize}

theorem recordRealloc_of_lt (grows : oldSize < newSize) : recordRealloc oldSize newSize =
    [.fetchAdd .allocCount 1, .fetchAdd .totalBytes (newSize - oldSize),
      .fetchAdd .currentBytes (newSize - oldSize), .fetchMax .peakBytes (newSize - oldSize)] := by
  rw [recordRealloc, if_pos grows]

theorem recordRealloc_of_gt (shrinks : newSize < oldSize) : recordRealloc oldSize newSize =
    [.fetchAdd .allocCount 1, .fetchSub .currentBytes (oldSize - newSize)] := by
  rw [recordRealloc, if_neg (BitVec.lt_asymm shrinks), if_pos shrinks]

theorem recordRealloc_self (size : U64) :
    recordRealloc size size = [.fetchAdd .allocCount 1] := by
  rw [recordRealloc, if_neg (BitVec.lt_irrefl size), if_neg (BitVec.lt_irrefl size)]

theorem recordRealloc_apply_of_lt (grows : oldSize < newSize) :
    v.apply (recordRealloc oldSize newSize) = fun
    | .allocCount => v .allocCount + 1
    | .totalBytes => v .totalBytes + (newSize - oldSize)
    | .currentBytes => v .currentBytes + (newSize - oldSize)
    | .peakBytes =>
        if v .peakBytes < v .currentBytes + (newSize - oldSize)
        then v .currentBytes + (newSize - oldSize) else v .peakBytes
    | c => v c := by
  rw [recordRealloc_of_lt grows]
  funext c
  cases c <;> rfl

theorem plainSums_recordRealloc_of_lt (grows : oldSize < newSize) :
    plainSums (v, 0) (recordRealloc oldSize newSize) =
      [(v .currentBytes).toNat + (newSize - oldSize).toNat] := by
  rw [recordRealloc_of_lt grows]
  rfl

theorem recordRealloc_apply_of_le (shrinks : newSize ≤ oldSize) :
    v.apply (recordRealloc oldSize newSize) = fun
    | .allocCount => v .allocCount + 1
    | .currentBytes => v .currentBytes - (oldSize - newSize)
    | c => v c := by
  by_cases same : newSize = oldSize
  · subst same
    rw [recordRealloc_self, BitVec.sub_self]
    funext c
    cases c with
    | currentBytes => exact (BitVec.sub_zero _).symm
    | _ => rfl
  · rw [recordRealloc_of_gt (BitVec.lt_of_le_ne shrinks same)]
    funext c
    cases c <;> rfl

theorem plainSums_recordRealloc_of_le (shrinks : newSize ≤ oldSize) :
    plainSums (v, 0) (recordRealloc oldSize newSize) = [] := by
  by_cases same : newSize = oldSize
  · subst same
    rw [recordRealloc_self]
    rfl
  · rw [recordRealloc_of_gt (BitVec.lt_of_le_ne shrinks same)]
    rfl

end Apply

end ModAlloc
