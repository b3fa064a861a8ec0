import ModAlloc.Backtrace.Config
import ModAlloc.Lib.Interleaving

/-!
# The call-site aggregation table

The open-addressed table of `table.rs` as a program over shared memory: a
`record` call and a `call_sites_report` scan are processes whose atomic steps
are the single loads, stores, compare-exchanges and fetch-adds of the source,
and `tableProgram` interleaves any number of them. The statics that describe the
table are those of an initialised process (`Statics.Initialised`); how they are
published is the subject of `ModAlloc.Backtrace.Init`.

`RecordCall.step` and `ScanCall.step` are the source's control flow;
`RecordCall.Trans` and `ScanCall.Trans` list what a step can do, and the proofs
about the table argue from these lists.
-/

namespace ModAlloc

open Interleaving

/-- One row in the per-call-site report. `frame_count` is a `u8` that the report
takes to at most 8. -/
structure CallSiteStats where
  frames : Vector U64 8
  frameCount : Fin 9
  count : U64
  totalBytes : U64
deriving DecidableEq, Repr

/-- `frames[..frame_count]` of a row. -/
def CallSiteStats.trace (r : CallSiteStats) : List U64 := r.frames.toList.take r.frameCount

structure Bucket where
  hash : U64
  count : U64
  totalBytes : U64
  frameCount : U64
  sampleFrames : Vector U64 8
deriving DecidableEq, Repr

/-- A bucket of freshly mapped pages. -/
def Bucket.empty : Bucket := ⟨0, 0, 0, 0, Vector.replicate 8 0⟩

/-- The pages behind `TABLE_BASE`, bucket by bucket. -/
abbrev Memory := Nat → Bucket

def Memory.empty : Memory := fun _ => Bucket.empty

/-- One atomic write to the bucket at `base.add(idx)`. -/
def Memory.modify (mem : Memory) (idx : Nat) (f : Bucket → Bucket) : Memory :=
  Function.update mem idx (f (mem idx))

@[simp] theorem Memory.modify_self (mem : Memory) (idx : Nat) (f : Bucket → Bucket) :
    mem.modify idx f idx = f (mem idx) := Function.update_self ..

theorem Memory.modify_of_ne {mem : Memory} {idx b : Nat} (f : Bucket → Bucket) (ne : b ≠ idx) :
    mem.modify idx f b = mem b := Function.update_of_ne ne ..

/-- A write leaves the fields alone that it does not write. -/
theorem Memory.modify_field {γ : Type*} {mem : Memory} {idx : Nat} {f : Bucket → Bucket}
    (field : Bucket → γ) (kept : ∀ b, field (f b) = field b) (b : Nat) :
    field (mem.modify idx f b) = field (mem b) := by
  by_cases here : b = idx
  · rw [here, Memory.modify_self, kept]
  · rw [Memory.modify_of_ne f here]

/-- `TABLE_BASE`, `TABLE_BUCKETS` and `TABLE_MASK`; a base of `0` is null. -/
structure Statics where
  base : Nat
  buckets : Nat
  mask : Nat
deriving DecidableEq, Repr

/-- The statics of a process whose table was configured by `env` and published. -/
structure Statics.Initialised (st : Statics) (env : Option (List Char)) : Prop where
  base_ne_null : st.base ≠ 0
  buckets_eq : st.buckets = configuredBucketCount env
  mask_eq : st.mask = st.buckets - 1

/-! ## `record` -/

/-- How a `record` call ends: it claimed a bucket, added to one, found the table
full, or had no frames to record. -/
inductive Outcome where
  | claimed (idx : Nat)
  | matched (idx : Nat)
  | dropped
  | skipped
deriving DecidableEq, Repr

/-- The next atomic step of a `record` call. -/
inductive RecordPc where
  /-- `ensure_init`: `TABLE_BASE.load` -/
  | loadBase
  /-- `ensure_init`: `TABLE_BUCKETS.load` -/
  | loadBuckets
  /-- `ensure_init`: `TABLE_MASK.load` -/
  | loadMask
  /-- `bucket.hash.load` -/
  | probe (idx : Nat)
  /-- `bucket.hash.compare_exchange(0, h)` -/
  | claim (idx : Nat)
  /-- `bucket.sample_frames[i].store` of the claimer -/
  | fill (idx : Nat) (i : Fin 8)
  /-- `bucket.count.fetch_add` of the claimer -/
  | initCount (idx : Nat)
  /-- `bucket.total_bytes.fetch_add` of the claimer -/
  | initBytes (idx : Nat)
  /-- `bucket.frame_count.store` -/
  | publish (idx : Nat)
  /-- `bucket.count.fetch_add` of a later event -/
  | matchCount (idx : Nat)
  /-- `bucket.total_bytes.fetch_add` of a later event -/
  | matchBytes (idx : Nat)
  | returned (outcome : Outcome)
deriving DecidableEq, Repr

/-- A `record(frames, size)` call in progress. `visited` counts the slots whose
hash the call has loaded; the source does not keep it. -/
structure RecordCall where
  frames : Frames
  size : U64
  visited : Nat
  pc : RecordPc
deriving DecidableEq, Repr

namespace RecordCall

/-- Entry of `record`: a capture without frames is not recorded. -/
def init (frames : Frames) (size : U64) : RecordCall :=
  { frames, size, visited := 0
    pc := if frames.count.val = 0 then .returned .skipped else .loadBase }

def hash (c : RecordCall) : U64 := c.frames.hash

/-- The home slot, `(h as usize) & mask`. -/
def start (st : Statics) (c : RecordCall) : Nat := c.hash.toNat &&& st.mask

/-- `idx = (idx + 1) & mask`, and the event is dropped on arrival at `start`. -/
def advance (st : Statics) (c : RecordCall) (idx : Nat) : RecordPc :=
  let idx := (idx + 1) &&& st.mask
  if idx = c.start st then .returned .dropped else .probe idx

/-- One atomic step of `record`. -/
def step (st : Statics) (mem : Memory) (c : RecordCall) : Option (Memory × RecordCall) :=
  match c.pc with
  | .loadBase =>
      -- a null base would enter `ensure_init_slow`
      if st.base = 0 then none else some (mem, { c with pc := .loadBuckets })
  | .loadBuckets => some (mem, { c with pc := .loadMask })
  | .loadMask => some (mem, { c with pc := .probe (c.start st) })
  | .probe idx =>
      let existing := (mem idx).hash
      let pc :=
        if existing = 0 then .claim idx
        else if existing = c.hash then .matchCount idx
        else c.advance st idx
      some (mem, { c with visited := c.visited + 1, pc })
  | .claim idx =>
      let observed := (mem idx).hash
      if observed = 0 then
        some (mem.modify idx fun b => { b with hash := c.hash }, { c with pc := .fill idx 0 })
      else if observed = c.hash then
        some (mem, { c with pc := .matchCount idx })
      else
        some (mem, { c with pc := c.advance st idx })
  | .fill idx i =>
      some (mem.modify idx fun b =>
          { b with sampleFrames := b.sampleFrames.set i c.frames.frames[i] },
        { c with pc := if more : i.val + 1 < c.frames.count.val
                       then .fill idx ⟨i.val + 1, by omega⟩ else .initCount idx })
  | .initCount idx =>
      some (mem.modify idx fun b => { b with count := b.count + 1 }, { c with pc := .initBytes idx })
  | .initBytes idx =>
      some (mem.modify idx fun b => { b with totalBytes := b.totalBytes + c.size },
        { c with pc := .publish idx })
  | .publish idx =>
      some (mem.modify idx fun b => { b with frameCount := BitVec.ofNat 64 c.frames.count },
        { c with pc := .returned (.claimed idx) })
  | .matchCount idx =>
      some (mem.modify idx fun b => { b with count := b.count + 1 }, { c with pc := .matchBytes idx })
  | .matchBytes idx =>
      some (mem.modify idx fun b => { b with totalBytes := b.totalBytes + c.size },
        { c with pc := .returned (.matched idx) })
  | .returned _ => none

/-- What one step of `record` does. -/
inductive Trans (st : Statics) (mem : Memory) (c : RecordCall) : Memory → RecordCall → Prop
  | loadBase : c.pc = .loadBase → st.base ≠ 0 → Trans st mem c mem { c with pc := .loadBuckets }
  | loadBuckets : c.pc = .loadBuckets → Trans st mem c mem { c with pc := .loadMask }
  | loadMask : c.pc = .loadMask → Trans st mem c mem { c with pc := .probe (c.start st) }
  | seeFree {idx : Nat} : c.pc = .probe idx → (mem idx).hash = 0 →
    Trans st mem c mem { c with visited := c.visited + 1, pc := .claim idx }
  | seeOwn {idx : Nat} : c.pc = .probe idx → (mem idx).hash = c.hash →
    Trans st mem c mem { c with visited := c.visited + 1, pc := .matchCount idx }
  | seeOther {idx : Nat} : c.pc = .probe idx → (mem idx).hash ≠ 0 → (mem idx).hash ≠ c.hash →
    Trans st mem c mem { c with visited := c.visited + 1, pc := c.advance st idx }
  | claim {idx : Nat} : c.pc = .claim idx → (mem idx).hash = 0 →
    Trans st mem c (mem.modify idx fun b => { b with hash := c.hash }) { c with pc := .fill idx 0 }
  | loseToOwn {idx : Nat} : c.pc = .claim idx → (mem idx).hash = c.hash →
    Trans st mem c mem { c with pc := .matchCount idx }
  | loseToOther {idx : Nat} : c.pc = .claim idx → (mem idx).hash ≠ 0 →
    (mem idx).hash ≠ c.hash → Trans st mem c mem { c with pc := c.advance st idx }
  | fill {idx : Nat} {i : Fin 8} (more : i.val + 1 < c.frames.count.val) : c.pc = .fill idx i →
    Trans st mem c (mem.modify idx fun b =>
        { b with sampleFrames := b.sampleFrames.set i c.frames.frames[i] })
      { c with pc := .fill idx ⟨i.val + 1, by omega⟩ }
  | fillLast {idx : Nat} {i : Fin 8} : ¬ i.val + 1 < c.frames.count.val → c.pc = .fill idx i →
    Trans st mem c (mem.modify idx fun b =>
        { b with sampleFrames := b.sampleFrames.set i c.frames.frames[i] })
      { c with pc := .initCount idx }
  | initCount {idx : Nat} : c.pc = .initCount idx →
    Trans st mem c (mem.modify idx fun b => { b with count := b.count + 1 })
      { c with pc := .initBytes idx }
  | initBytes {idx : Nat} : c.pc = .initBytes idx →
    Trans st mem c (mem.modify idx fun b => { b with totalBytes := b.totalBytes + c.size })
      { c with pc := .publish idx }
  | publish {idx : Nat} : c.pc = .publish idx →
    Trans st mem c (mem.modify idx fun b =>
        { b with frameCount := BitVec.ofNat 64 c.frames.count })
      { c with pc := .returned (.claimed idx) }
  | matchCount {idx : Nat} : c.pc = .matchCount idx →
    Trans st mem c (mem.modify idx fun b => { b with count := b.count + 1 })
      { c with pc := .matchBytes idx }
  | matchBytes {idx : Nat} : c.pc = .matchBytes idx →
    Trans st mem c (mem.modify idx fun b => { b with totalBytes := b.totalBytes + c.size })
      { c with pc := .returned (.matched idx) }

theorem trans_of_step {st : Statics} {mem mem' : Memory} {c c' : RecordCall}
    (stepped : c.step st mem = some (mem', c')) : Trans st mem c mem' c' := by
  unfold step at stepped
  split at stepped
  case h_1 pc =>
    split at stepped
    · cases stepped
    · cases stepped
      exact .loadBase pc ‹_›
  case h_2 pc => cases stepped; exact .loadBuckets pc
  case h_3 pc => cases stepped; exact .loadMask pc
  case h_4 idx pc =>
    cases stepped
    split
    · exact .seeFree pc ‹_›
    · split
      · exact .seeOwn pc ‹_›
      · exact .seeOther pc ‹_› ‹_›
  case h_5 idx pc =>
    dsimp only at stepped
    split at stepped
    · cases stepped
      exact .claim pc ‹_›
    · split at stepped
      · cases stepped
        exact .loseToOwn pc ‹_›
      · cases stepped
        exact .loseToOther pc ‹_› ‹_›
  case h_6 idx i pc =>
    cases stepped
    split
    · exact .fill ‹_› pc
    · exact .fillLast ‹_› pc
  case h_7 idx pc => cases stepped; exact .initCount pc
  case h_8 idx pc => cases stepped; exact .initBytes pc
  case h_9 idx pc => cases stepped; exact .publish pc
  case h_10 idx pc => cases stepped; exact .matchCount pc
  case h_11 idx pc => cases stepped; exact .matchBytes pc
  case h_12 => cases stepped

end RecordCall

/-! ## `call_sites_report` -/

/-- The next atomic step of a report scan. -/
inductive ScanPc where
  | loadBase
  | loadBuckets
  | loadMask
  /-- `bucket.hash.load` -/
  | loadHash (i : Nat)
  /-- `bucket.frame_count.load` -/
  | loadFrameCount (i : Nat)
  /-- `bucket.sample_frames[j].load`, with the frames read so far -/
  | loadFrame (i : Nat) (n : Fin 9) (j : Fin 8) (frames : Vector U64 8)
  /-- `bucket.count.load` -/
  | loadCount (i : Nat) (n : Fin 9) (frames : Vector U64 8)
  /-- `bucket.total_bytes.load` -/
  | loadBytes (i : Nat) (n : Fin 9) (frames : Vector U64 8) (count : U64)
  | returned
deriving DecidableEq, Repr

/-- A `call_sites_report()` call in progress, with the rows pushed so far. -/
structure ScanCall where
  out : List CallSiteStats
  pc : ScanPc
deriving DecidableEq, Repr

namespace ScanCall

def init : ScanCall := { out := [], pc := .loadBase }

/-- The head of the loop `for i in 0..buckets`. -/
def loop (st : Statics) (i : Nat) : ScanPc :=
  if i < st.buckets then .loadHash i else .returned

/-- `(fc as usize).min(8)`. -/
def clampFrameCount (fc : U64) : Fin 9 := ⟨min fc.toNat 8, by omega⟩

/-- One atomic step of `call_sites_report`; a scan writes nothing. -/
def step (st : Statics) (mem : Memory) (r : ScanCall) : Option ScanCall :=
  match r.pc with
  | .loadBase => if st.base = 0 then none else some { r with pc := .loadBuckets }
  | .loadBuckets => some { r with pc := .loadMask }
  | .loadMask => some { r with pc := loop st 0 }
  | .loadHash i =>
      some { r with pc := if (mem i).hash = 0 then loop st (i + 1) else .loadFrameCount i }
  | .loadFrameCount i =>
      let fc := (mem i).frameCount
      some { r with pc := if fc = 0 then loop st (i + 1)
                          else .loadFrame i (clampFrameCount fc) 0 (Vector.replicate 8 0) }
  | .loadFrame i n j frames =>
      let frames := frames.set j (mem i).sampleFrames[j]
      some { r with pc := if more : j.val + 1 < n.val
                          then .loadFrame i n ⟨j.val + 1, by omega⟩ frames
                          else .loadCount i n frames }
  | .loadCount i n frames => some { r with pc := .loadBytes i n frames (mem i).count }
  | .loadBytes i n frames count =>
      let row := { frames, frameCount := n, count, totalBytes := (mem i).totalBytes }
      some { out := r.out ++ [row], pc := loop st (i + 1) }
  | .returned => none

/-- What one step of a scan does. -/
inductive Trans (st : Statics) (mem : Memory) (r : ScanCall) : ScanCall → Prop
  | loadBase : r.pc = .loadBase → st.base ≠ 0 → Trans st mem r { r with pc := .loadBuckets }
  | loadBuckets : r.pc = .loadBuckets → Trans st mem r { r with pc := .loadMask }
  | loadMask : r.pc = .loadMask → Trans st mem r { r with pc := loop st 0 }
  | skipFree {i : Nat} : r.pc = .loadHash i → (mem i).hash = 0 →
    Trans st mem r { r with pc := loop st (i + 1) }
  | seeHash {i : Nat} : r.pc = .loadHash i → (mem i).hash ≠ 0 →
    Trans st mem r { r with pc := .loadFrameCount i }
  | skipUnpublished {i : Nat} : r.pc = .loadFrameCount i → (mem i).frameCount = 0 →
    Trans st mem r { r with pc := loop st (i + 1) }
  | seePublished {i : Nat} : r.pc = .loadFrameCount i → (mem i).frameCount ≠ 0 →
    Trans st mem r { r with pc := .loadFrame i (clampFrameCount (mem i).frameCount) 0
                                    (Vector.replicate 8 0) }
  | loadFrame {i : Nat} {n : Fin 9} {j : Fin 8} {frames : Vector U64 8}
    (more : j.val + 1 < n.val) : r.pc = .loadFrame i n j frames →
    Trans st mem r { r with pc := .loadFrame i n ⟨j.val + 1, by omega⟩
                                    (frames.set j (mem i).sampleFrames[j]) }
  | loadLastFrame {i : Nat} {n : Fin 9} {j : Fin 8} {frames : Vector U64 8} :
    ¬ j.val + 1 < n.val → r.pc = .loadFrame i n j frames →
    Trans st mem r { r with pc := .loadCount i n (frames.set j (mem i).sampleFrames[j]) }
  | loadCount {i : Nat} {n : Fin 9} {frames : Vector U64 8} : r.pc = .loadCount i n frames →
    Trans st mem r { r with pc := .loadBytes i n frames (mem i).count }
  | loadBytes {i : Nat} {n : Fin 9} {frames : Vector U64 8} {count : U64} :
    r.pc = .loadBytes i n frames count →
    Trans st mem r { out := r.out ++ [⟨frames, n, count, (mem i).totalBytes⟩]
                     pc := loop st (i + 1) }

theorem trans_of_step {st : Statics} {mem : Memory} {r r' : ScanCall}
    (stepped : r.step st mem = some r') : Trans st mem r r' := by
  unfold step at stepped
  split at stepped
  case h_1 pc =>
    split at stepped
    · cases stepped
    · cases stepped
      exact .loadBase pc ‹_›
  case h_2 pc => cases stepped; exact .loadBuckets pc
  case h_3 pc => cases stepped; exact .loadMask pc
  case h_4 i pc =>
    cases stepped
    split
    · exact .skipFree pc ‹_›
    · exact .seeHash pc ‹_›
  case h_5 i pc =>
    cases stepped
    split
    · exact .skipUnpublished pc ‹_›
    · exact .seePublished pc ‹_›
  case h_6 i n j frames pc =>
    cases stepped
    split
    · exact .loadFrame ‹_› pc
    · exact .loadLastFrame ‹_› pc
  case h_7 i n frames pc => cases stepped; exact .loadCount pc
  case h_8 i n frames count pc => cases stepped; exact .loadBytes pc
  case h_9 => cases stepped

end ScanCall

/-! ## The table under any interleaving -/

/-- A process working on the table. -/
inductive Proc where
  | record (c : RecordCall)
  | scan (r : ScanCall)
deriving DecidableEq, Repr

/-- A call that may be made at any time. -/
inductive Call where
  | record (frames : Frames) (size : U64)
  | report
deriving DecidableEq, Repr

def Call.init : Call → Proc
  | .record frames size => .record (.init frames size)
  | .report => .scan .init

/-- One atomic step of a process. -/
def Proc.step (st : Statics) (mem : Memory) : Proc → Option (Memory × Proc)
  | .record c => (c.step st mem).map fun r => (r.1, .record r.2)
  | .scan r => (r.step st mem).map fun r => (mem, .scan r)

/-- `record` calls and report scans over one initialised table. -/
def tableProgram (st : Statics) : Program Memory Proc Call Unit where
  start mem _ call := some (mem, call.init)
  act mem _ p _ := p.step st mem

abbrev TableState := Pool Memory Proc

/-- The table as it is mapped, before any call. -/
def TableState.empty : TableState := ⟨Memory.empty, []⟩

def Proc.asRecord : Proc → Option RecordCall
  | .record c => some c
  | .scan _ => none

/-- The `record` calls made so far. -/
def TableState.calls (s : TableState) : List RecordCall := s.procs.filterMap Proc.asRecord

theorem tableProgram_start {st : Statics} {mem mem' : Memory} {n : Nat} {call : Call} {p : Proc}
    (started : (tableProgram st).start mem n call = some (mem', p)) :
    mem' = mem ∧ p = call.init := by
  cases started
  exact ⟨rfl, rfl⟩

theorem tableProgram_act {st : Statics} {mem mem' : Memory} {n : Nat} {p p' : Proc} {a : Unit}
    (acted : (tableProgram st).act mem n p a = some (mem', p')) :
    (∃ c c', p = .record c ∧ p' = .record c' ∧ RecordCall.Trans st mem c mem' c') ∨
      (∃ r r', p = .scan r ∧ p' = .scan r' ∧ mem' = mem ∧ ScanCall.Trans st mem r r') := by
  cases p with
  | record c =>
      obtain ⟨⟨m, c'⟩, stepped, eq⟩ := Option.map_eq_some_iff.mp acted
      cases eq
      exact .inl ⟨c, c', rfl, rfl, RecordCall.trans_of_step stepped⟩
  | scan r =>
      obtain ⟨r', stepped, eq⟩ := Option.map_eq_some_iff.mp acted
      cases eq
      exact .inr ⟨r, r', rfl, rfl, rfl, ScanCall.trans_of_step stepped⟩

theorem mem_calls_iff {s : TableState} {c : RecordCall} :
    c ∈ s.calls ↔ .record c ∈ s.procs := by
  rw [TableState.calls, List.mem_filterMap]
  constructor
  · rintro ⟨p, inProcs, eq⟩
    cases p with
    | record c' => cases eq; exact inProcs
    | scan r => cases eq
  · exact fun inProcs => ⟨_, inProcs, rfl⟩

end ModAlloc
