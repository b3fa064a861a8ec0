import ModAlloc.Backtrace.Startup

/-!
# What the start of the process does to the table

A call that has read the mask as zero works on the table as if it had one bucket: it
claims bucket 0, adds to it or drops its event (`Statics.view`). The hash that it puts
there is out of its place, and the searches of the other calls pass it by as they pass
any other hash. So the table is a table with linear probing in which bucket 0 may hold a
label of its own (`Memory.Strayed`), and a hash is held by one bucket, or by bucket 0
and one more.
-/

namespace ModAlloc

open Interleaving Interleaving.Program LinearProbe

variable {st : Statics} {n b : Nat} {table table' : Memory} {r r' : RecordCall}

/-! ## Hashes out of their place -/

/-- Where the search for a label begins: that for a hash in its home slot, while what
was put into bucket 0 without a search is at home there. -/
def labelHome : Option U64 → Nat
  | some h => h.toNat
  | none => 0

/-- The hashes in the table as labels; `stray` says that bucket 0 has been claimed
without a search. -/
def Memory.labels (stray : Bool) (table : Memory) (b : Nat) : Option (Option U64) :=
  (table.keys b).map fun h => if stray = true ∧ b = 0 then none else some h

/-- Hashes are found by probing, but for the one in bucket 0 where that is out of its
place, and an unclaimed bucket is blank. -/
structure Memory.Strayed (n : Nat) (table : Memory) : Prop where
  placed : ∃ stray : Bool, (stray = true → (table 0).hash ≠ 0) ∧
    Placed n labelHome (table.labels stray)
  blank : ∀ b, (table b).hash = 0 → table b = Bucket.empty

theorem Memory.Strayed.empty : Memory.empty.Strayed n :=
  ⟨⟨false, fun stray => Bool.noConfusion stray, Placed.of_free fun _ => rfl⟩, fun _ _ => rfl⟩

theorem Memory.labels_eq_none {stray : Bool} (free : (table b).hash = 0) :
    table.labels stray b = none := by
  rw [labels, keys_eq_none.mpr free, Option.map_none]

theorem Memory.labels_eq_some {stray : Bool} (claimed : (table b).hash ≠ 0)
    (home : ¬ (stray = true ∧ b = 0)) : table.labels stray b = some (some (table b).hash) := by
  rw [labels, keys_eq_some.mpr ⟨claimed, rfl⟩, Option.map_some, if_neg home]

/-- The slots that a search for a hash has passed hold other labels. -/
theorem passed_labels {stray : Bool} {h : U64} {k : Nat} (passed : Passed n table.keys h.toNat h k) :
    Passed n (table.labels stray) (labelHome (some h)) (some h) k := by
  intro j before
  obtain ⟨other, held, different⟩ := passed j before
  refine ⟨_, by rw [labelHome, Memory.labels, held, Option.map_some], ?_⟩
  split
  · exact Option.some_ne_none h |>.symm
  · exact fun same => different (Option.some.inj same)

theorem Memory.keys_modify_claim {h : U64} {idx : Nat} (nonzero : h ≠ 0) (b : Nat) :
    (table.modify idx fun b => { b with hash := h }).keys b =
      if b = idx then some h else table.keys b := by
  by_cases here : b = idx
  · rw [if_pos here, here, keys_eq_some, Memory.modify_self]
    exact ⟨nonzero, rfl⟩
  · rw [if_neg here, Memory.keys, Memory.modify_of_ne _ here, Memory.keys]

/-- Claiming the slot that a search has ended at. -/
theorem Memory.Strayed.claim {h : U64} {k : Nat} (strayed : table.Strayed n) (nonzero : h ≠ 0)
    (inRange : k < n) (passed : Passed n table.keys h.toNat h k)
    (free : (table (slot n h.toNat k)).hash = 0) :
    ∃ stray : Bool,
      (stray = true → ((table.modify (slot n h.toNat k) fun b => { b with hash := h }) 0).hash ≠ 0) ∧
      Placed n labelHome
        ((table.modify (slot n h.toNat k) fun b => { b with hash := h }).labels stray) := by
  obtain ⟨stray, set, placed⟩ := strayed.placed
  have home : ¬ (stray = true ∧ slot n h.toNat k = 0) := by
    rintro ⟨isStray, zero⟩
    exact set isStray (zero ▸ free)
  refine ⟨stray, fun isStray => ?_, ?_⟩
  · rw [Memory.modify_of_ne _ fun zero => home ⟨isStray, zero.symm⟩]
    exact set isStray
  · have labels : (table.modify (slot n h.toNat k) fun b => { b with hash := h }).labels stray =
        Function.update (table.labels stray) (slot n h.toNat k) (some (some h)) := by
      funext b
      rw [Memory.labels, keys_modify_claim nonzero]
      by_cases here : b = slot n h.toNat k
      · subst here
        rw [if_pos rfl, Function.update_self, Option.map_some, if_neg home]
      · rw [if_neg here, Function.update_of_ne here, Memory.labels]
    rw [labels]
    exact placed.insert inRange (passed_labels passed) (labels_eq_none free)

/-- Claiming bucket 0 without a search. -/
theorem Memory.Strayed.claim_stray {h : U64} (strayed : table.Strayed n) (nonzero : h ≠ 0)
    (pos : 0 < n) (free : (table 0).hash = 0) :
    Placed n labelHome ((table.modify 0 fun b => { b with hash := h }).labels true) := by
  obtain ⟨stray, set, placed⟩ := strayed.placed
  have home : slot n (labelHome none) 0 = 0 := Nat.zero_mod n
  have labels : (table.modify 0 fun b => { b with hash := h }).labels true =
      Function.update (table.labels stray) (slot n (labelHome none) 0) (some none) := by
    funext b
    rw [home, Memory.labels, keys_modify_claim nonzero]
    by_cases here : b = 0
    · subst here
      rw [if_pos rfl, Function.update_self, Option.map_some, if_pos ⟨rfl, rfl⟩]
    · rw [if_neg here, Function.update_of_ne here, Memory.labels]
      congr 1
      funext other
      rw [if_neg fun both => here both.2, if_neg fun both => here both.2]
  rw [labels]
  exact placed.insert pos Passed.zero (by rw [home]; exact labels_eq_none free)

/-- What is unclaimed after a step is as it was before. -/
theorem RecordCall.Trans.unclaimed_kept (trans : RecordCall.Trans st table r table' r')
    (sound : r.Sound st table) (free : (table' b).hash = 0) : table' b = table b := by
  have elsewhere : ∀ {idx f}, (table idx).hash = r.hash → (∀ b : Bucket, (f b).hash = b.hash) →
      ((table.modify idx f) b).hash = 0 → (table.modify idx f) b = table b := by
    intro idx f held keeps free
    refine Memory.modify_of_ne f ?_
    rintro rfl
    rw [Memory.modify_self, keeps, held] at free
    exact Frames.hash_ne_zero _ free
  cases trans with
  | @claim idx pc _ =>
      refine Memory.modify_of_ne _ ?_
      rintro rfl
      rw [Memory.modify_self] at free
      exact Frames.hash_ne_zero _ free
  | fill _ pc | fillLast _ pc | initCount pc | initBytes pc | publish pc | matchCount pc
  | matchBytes pc =>
      simp only [RecordCall.Sound, pc] at sound
      exact elsewhere sound.2.2 (fun _ => rfl) free
  | _ => rfl

/-- **A step of `record` keeps the table strayed at most**, with the whole table in view or
with one bucket. -/
theorem Memory.Strayed.record (strayed : table.Strayed n)
    (trans : RecordCall.Trans st table r table' r') (sound : r.Sound st table) (pos : 0 < n)
    (size : st.buckets = 1 ∨ st.buckets = n) : table'.Strayed n := by
  have blank : ∀ b, (table' b).hash = 0 → table' b = Bucket.empty := by
    intro b free
    have kept := trans.unclaimed_kept sound free
    rw [kept] at free ⊢
    exact strayed.blank b free
  refine ⟨?_, blank⟩
  rcases trans.hash_cases with same | ⟨idx, pc, free, rfl⟩
  · have labels : ∀ stray, table'.labels stray = table.labels stray := by
      intro stray
      funext b
      rw [Memory.labels, Memory.labels, Memory.keys, Memory.keys, same]
    obtain ⟨stray, set, placed⟩ := strayed.placed
    exact ⟨stray, fun isStray => by rw [same]; exact set isStray, by rwa [labels]⟩
  · simp only [RecordCall.Sound, pc] at sound
    obtain ⟨k, _, inRange, rfl, searched⟩ := sound
    rcases size with one | whole
    · have zero : slot st.buckets r.hash.toNat k = 0 := by rw [one, slot, Nat.mod_one]
      rw [zero] at free ⊢
      refine ⟨true, fun _ => ?_, strayed.claim_stray (Frames.hash_ne_zero _) pos free⟩
      rw [Memory.modify_self]
      exact Frames.hash_ne_zero _
    · unfold RecordCall.Searched at searched
      rw [whole] at inRange searched free ⊢
      exact strayed.claim (Frames.hash_ne_zero _) inRange searched free

/-- **No hash is in two buckets other than bucket 0.** -/
theorem Memory.Strayed.unique (strayed : table.Strayed n) {a b : Nat} (ha : a < n) (hb : b < n)
    (at_a : a ≠ 0) (at_b : b ≠ 0) (claimed : (table a).hash ≠ 0)
    (same : (table a).hash = (table b).hash) : a = b := by
  obtain ⟨stray, _, placed⟩ := strayed.placed
  have label : table.labels stray a = some (some (table a).hash) :=
    Memory.labels_eq_some claimed fun both => at_a both.2
  have label' : table.labels stray b = some (some (table a).hash) := by
    rw [same] at claimed ⊢
    exact Memory.labels_eq_some claimed fun both => at_b both.2
  exact placed.unique ha hb label label'

/-! ## The table that a call has in view -/

/-- The statics as `record` works with them: it goes by the mask alone. -/
def Statics.view (st : Statics) : Statics := { st with buckets := st.mask + 1 }

theorem RecordCall.trans_view (stepped : r.step st table = some (table', r')) :
    RecordCall.Trans st.view table r table' r' := by
  have same : r.step st.view table = r.step st table := rfl
  exact RecordCall.trans_of_step (same.trans stepped)

/-- A call has the whole table in view, or bucket 0. -/
theorem Statics.Partly.view {mem : InitMemory} (read : st.Partly mem.statics) (memSound : mem.Sound) :
    st.view.Masked ∧ (st.view.buckets = 1 ∨ st.view.buckets = mem.capacity) ∧ 0 < mem.capacity := by
  obtain ⟨owner, env, capacity, _, _, mask⟩ := memSound.table read.nonnull
  obtain ⟨k, _, _, pow⟩ := configuredBucketCount_cases env
  have pos := Nat.two_pow_pos k
  have seen : st.mask = 0 ∨ st.mask = mem.capacity - 1 := by
    rcases read.mask with zero | same
    · exact .inl zero
    · rw [same]
      exact mask
  have many : st.mask = mem.capacity - 1 → st.mask + 1 = 2 ^ k := by
    rw [capacity, pow]
    omega
  refine ⟨⟨Nat.succ_pos _, fun x => ?_⟩, ?_, by rw [capacity, pow]; exact pos⟩
  · show x &&& st.mask = x % (st.mask + 1)
    rcases seen with zero | whole
    · rw [zero, Nat.and_zero, Nat.mod_one]
    · rw [many whole, show st.mask = 2 ^ k - 1 by have := many whole; omega,
        Nat.and_two_pow_sub_one_eq_mod]
  · rcases seen with zero | whole
    · exact .inl (congrArg (· + 1) zero)
    · refine .inr ?_
      show st.mask + 1 = mem.capacity
      rw [many whole, capacity, pow]

/-- The bucket that the next step of a call reads or writes. -/
def RecordPc.bucket : RecordPc → Option Nat
  | .probe b | .claim b | .fill b _ | .initCount b | .initBytes b | .publish b | .matchCount b
  | .matchBytes b => some b
  | .loadBase | .loadBuckets | .loadMask | .returned _ => none

/-- The bucket that the next step of a scan reads. -/
def ScanPc.bucket : ScanPc → Option Nat
  | .loadHash b | .loadFrameCount b | .loadFrame b _ _ _ | .loadCount b _ _ | .loadBytes b _ _ _ => some b
  | .loadBase | .loadBuckets | .loadMask | .returned => none

def Proc.bucket : Proc → Option Nat
  | .record r => r.pc.bucket
  | .scan q => q.pc.bucket

/-- A call goes on within the buckets that its mask allows. -/
theorem RecordCall.Sound.bucket_lt (sound : r.Sound st table) (masked : st.Masked)
    (next : r.pc.bucket = some b) : b < st.buckets := by
  unfold RecordCall.Sound at sound
  cases pc : r.pc with
  | probe idx =>
      rw [pc] at sound next
      cases next
      rw [sound.2.1]
      exact slot_lt masked.buckets_pos
  | claim idx =>
      rw [pc] at sound next
      cases next
      obtain ⟨k, _, _, rfl, _⟩ := sound
      exact slot_lt masked.buckets_pos
  | fill idx i =>
      rw [pc] at sound next
      cases next
      exact sound.2.1
  | initCount idx | initBytes idx | publish idx | matchCount idx | matchBytes idx =>
      rw [pc] at sound next
      cases next
      exact sound.2.1
  | loadBase | loadBuckets | loadMask | returned outcome =>
      rw [pc] at next
      cases next

/-- The bucket that a scan reads next is one of the first `n`. -/
def ScanCall.Below (n : Nat) (r : ScanCall) : Prop := ∀ b, r.pc.bucket = some b → b < n

theorem ScanCall.below_loop {out : List CallSiteStats} (st : Statics) (i : Nat) :
    ScanCall.Below st.buckets ⟨out, ScanCall.loop st i⟩ := by
  intro b next
  unfold ScanCall.loop at next
  split at next
  · cases next
    assumption
  · cases next

theorem ScanCall.Trans.below {q q' : ScanCall} (trans : ScanCall.Trans st table q q')
    (below : q.Below st.buckets) : q'.Below st.buckets := by
  cases trans with
  | loadBase _ _ | loadBuckets _ => exact fun b none => by cases none
  | loadMask _ | skipFree _ _ | skipUnpublished _ _ | loadBytes _ => exact ScanCall.below_loop st _
  | seeHash pc _ | seePublished pc _ | loadFrame _ pc | loadLastFrame _ pc | loadCount pc =>
      rw [ScanCall.Below, pc] at below
      exact below

/-- What a call knows of the table it works on. -/
def Proc.InTable (st : Statics) (table : Memory) : Proc → Prop
  | .record r => r.Sound st.view table
  | .scan q => q.Below st.buckets

theorem Call.enter_inTable (masked : st.view.Masked) (call : Call) :
    (call.enter st).InTable st table := by
  cases call with
  | record frames size =>
      exact ⟨masked.buckets_pos, masked.start_eq (RecordCall.init frames size), Passed.zero⟩
  | report => exact ScanCall.below_loop st 0

/-! ## Steps -/

variable {mem mem' : StartMemory} {c c' d : StartCall}

/-- The call with its `ensure_init` at a point that is not the end, or behind it. -/
theorem StartCall.resume_cases (call : Call) (i : InitCall) :
    (StartCall.resume call i = ⟨call, .initialising i⟩) ∨
      (StartCall.resume call i = ⟨call, .noTable⟩ ∧ i.pc = .returned .failed) ∨
      ∃ outcome st, i.pc = .returned outcome ∧ outcome.result = some st ∧
        StartCall.resume call i = ⟨call, .running st (call.enter st)⟩ := by
  unfold StartCall.resume
  split
  case h_1 outcome pc =>
      cases outcome with
      | failed => exact .inr (.inl ⟨rfl, pc⟩)
      | found st | won st | lost st => exact .inr (.inr ⟨_, st, pc, rfl, rfl⟩)
  case h_2 => exact .inl rfl

/-- What one step of a call does. -/
inductive StartCall.Trans (mem : StartMemory) (c : StartCall) : StartMemory → StartCall → Prop
  | init {i i' : InitCall} {init : InitMemory} : c.phase = .initialising i →
    InitCall.Trans mem.init i init i' →
    Trans mem c ⟨init, i'.zeroed mem.pages⟩ (StartCall.resume c.call i')
  | record {st : Statics} {r r' : RecordCall} {table : Memory} : c.phase = .running st (.record r) →
    RecordCall.Trans st.view (mem.pages st.base) r table r' →
    Trans mem c { mem with pages := Function.update mem.pages st.base table }
      ⟨c.call, .running st (.record r')⟩
  | scan {st : Statics} {q q' : ScanCall} : c.phase = .running st (.scan q) →
    ScanCall.Trans st (mem.pages st.base) q q' →
    Trans mem c mem ⟨c.call, .running st (.scan q')⟩

theorem StartCall.trans_of_step {answer : Nat} (stepped : c.step mem answer = some (mem', c')) :
    StartCall.Trans mem c mem' c' := by
  unfold StartCall.step at stepped
  split at stepped
  case h_1 i phase =>
      obtain ⟨⟨init, i'⟩, inner, eq⟩ := Option.map_eq_some_iff.mp stepped
      cases eq
      exact .init phase (InitCall.trans_of_step inner)
  case h_2 st p phase =>
      obtain ⟨⟨table, p'⟩, inner, eq⟩ := Option.map_eq_some_iff.mp stepped
      cases eq
      cases p with
      | record r =>
          obtain ⟨⟨table', r'⟩, recorded, same⟩ := Option.map_eq_some_iff.mp inner
          rw [Prod.mk.injEq] at same
          obtain ⟨rfl, rfl⟩ := same
          exact .record phase (RecordCall.trans_view recorded)
      | scan q =>
          obtain ⟨q', scanned, same⟩ := Option.map_eq_some_iff.mp inner
          rw [Prod.mk.injEq] at same
          obtain ⟨rfl, rfl⟩ := same
          rw [Function.update_eq_self]
          exact .scan phase (ScanCall.trans_of_step scanned)
  case h_3 | h_4 => cases stepped

theorem startProgram_start {i : Nat} {arg : Option (List Char) × Call}
    (started : startProgram.start mem i arg = some (mem', c)) :
    mem' = mem ∧ c = .init i arg.1 arg.2 := by
  cases started
  exact ⟨rfl, rfl⟩

theorem startProgram_act {i answer : Nat}
    (acted : startProgram.act mem i c answer = some (mem', c')) : StartCall.Trans mem c mem' c' :=
  StartCall.trans_of_step acted

/-- A call that begins is in `ensure_init`, or it has no frames. -/
theorem StartCall.init_cases (index : Nat) (env : Option (List Char)) (call : Call) :
    (StartCall.init index env call).phase = .initialising (.init index env) ∨
      (StartCall.init index env call).phase = .noFrames := by
  cases call with
  | report => exact .inl rfl
  | record frames size =>
      by_cases none : frames.count.val = 0
      · exact .inr (if_pos none)
      · exact .inl (if_neg none)

/-! ## What holds in every state -/

/-- What a call knows of the statics, of its own pages and of the table. -/
def StartCall.Sound (mem : StartMemory) (c : StartCall) : Prop :=
  match c.phase with
  | .initialising i =>
      i.forget.Sound mem.init ∧ i.Holds mem.init.statics ∧
        (i.pc = .publish → mem.pages i.pages = Memory.empty)
  | .running st p => st.Partly mem.init.statics ∧ p.InTable st mem.table
  | .noTable | .noFrames => True

structure StartMemory.Sound (mem : StartMemory) : Prop where
  init : mem.init.Sound
  null : mem.pages 0 = Memory.empty
  table : mem.table.Strayed mem.init.capacity

/-- Calls in `ensure_init` are numbered by their place in the pool. -/
def StartState.Numbered (s : StartState) : Prop :=
  ∀ (i : Nat) (c : StartCall), s.procs[i]? = some c → ∀ ic, c.phase = .initialising ic → ic.index = i

theorem StartCall.Trans.index {n : Nat} (trans : StartCall.Trans mem c mem' c')
    (numbered : ∀ ic, c.phase = .initialising ic → ic.index = n) :
    ∀ ic, c'.phase = .initialising ic → ic.index = n := by
  intro ic phase
  cases trans with
  | @init i i' _ before trans =>
      rcases StartCall.resume_cases c.call i' with same | ⟨gone, _⟩ | ⟨_, _, _, _, runs⟩
      · rw [same] at phase
        cases phase
        exact trans.index.trans (numbered i before)
      · rw [gone] at phase
        cases phase
      · rw [runs] at phase
        cases phase
  | record _ _ => cases phase
  | scan _ _ => cases phase

theorem StartState.Numbered.step {s s' : StartState} {m : Move (Option (List Char) × Call) Nat}
    (numbered : s.Numbered) (stepped : startProgram.step s m = some s') : s'.Numbered := by
  intro i c after
  rcases Program.step_procs stepped after with
    old | ⟨rfl, arg, _, started⟩ | ⟨a, c₀, _, atIndex, acted⟩
  · exact numbered i c old
  · intro ic phase
    obtain ⟨_, rfl⟩ := startProgram_start started
    rcases StartCall.init_cases s.procs.length arg.1 arg.2 with begun | none
    · cases begun.symm.trans phase
      rfl
    · cases none.symm.trans phase
  · exact (startProgram_act acted).index (numbered i c₀ atIndex)

/-! ## Steps keep it -/

/-- The base changes by the compare-exchange that publishes the call's own pages. -/
theorem InitCall.Trans.base_or_publish {mem mem' : InitMemory} {i i' : InitCall}
    (trans : InitCall.Trans mem i mem' i') :
    mem'.statics.base = mem.statics.base ∨
      (mem.statics.base = 0 ∧ i.pc = .publish ∧ mem'.statics.base = i.pages) := by
  cases trans with
  | win pc null => exact .inr ⟨null, pc, rfl⟩
  | _ => exact .inl rfl

/-- **A step of `ensure_init` leaves the table alone.** Publishing it shows pages that
are as blank as nothing was before. -/
theorem StartMemory.Sound.init_step {i i' : InitCall} {init : InitMemory} (sound : mem.Sound)
    (trans : InitCall.Trans mem.init i init i') (known : i.forget.Sound mem.init)
    (blank : i.pc = .publish → mem.pages i.pages = Memory.empty) :
    StartMemory.Sound ⟨init, i'.zeroed mem.pages⟩ ∧
      StartMemory.table ⟨init, i'.zeroed mem.pages⟩ = mem.table := by
  obtain ⟨initSound, known'⟩ := trans.forget_sound sound.init known
  -- pages that have just been mapped are neither null nor the table
  have mapped : i'.pc = .publish → i'.pages ≠ 0 ∧ i'.pages ≠ init.statics.base := by
    intro pc
    simp only [InitCall.forget, InitCall.Sound, pc] at known'
    exact ⟨(initSound.region _ known'.1).1, known'.2.symm⟩
  have table : StartMemory.table ⟨init, i'.zeroed mem.pages⟩ = mem.pages init.statics.base :=
    InitCall.zeroed_of_ne fun pc => (mapped pc).2
  have kept : StartMemory.table ⟨init, i'.zeroed mem.pages⟩ = mem.table := by
    rw [table, StartMemory.table]
    rcases trans.base_or_publish with same | ⟨null, pc, base⟩
    · rw [same]
    · rw [base, blank pc, null, sound.null]
  refine ⟨⟨initSound, ?_, ?_⟩, kept⟩
  · rw [← sound.null]
    exact InitCall.zeroed_of_ne fun pc => (mapped pc).1
  · rw [kept]
    by_cases set : mem.init.statics.base = 0
    · rw [StartMemory.table, set, sound.null]
      exact .empty
    · rw [(trans.capacity sound.init known set).2]
      exact sound.table

/-- **A step of `record` on the table.** -/
theorem StartMemory.Sound.record_step (sound : mem.Sound) (read : st.Partly mem.init.statics)
    (trans : RecordCall.Trans st.view mem.table r table' r') (known : r.Sound st.view mem.table) :
    StartMemory.Sound { mem with pages := Function.update mem.pages st.base table' } ∧
      StartMemory.table { mem with pages := Function.update mem.pages st.base table' } = table' := by
  obtain ⟨_, size, pos⟩ := read.view sound.init
  have table : StartMemory.table { mem with pages := Function.update mem.pages st.base table' } =
      table' := by
    show Function.update mem.pages st.base table' mem.init.statics.base = table'
    rw [read.base, Function.update_self]
  refine ⟨⟨sound.init, ?_, ?_⟩, table⟩
  · have nonnull : (0 : Nat) ≠ st.base := by
      rw [read.base]
      exact read.nonnull.symm
    exact (Function.update_of_ne nonnull _ _).trans sound.null
  · rw [table]
    exact sound.table.record trans known pos size

/-- A step keeps what the stepping call knows. -/
theorem StartCall.Trans.sound (trans : StartCall.Trans mem c mem' c') (memSound : mem.Sound)
    (sound : c.Sound mem) : mem'.Sound ∧ c'.Sound mem' := by
  cases trans with
  | @init i i' init phase trans =>
      simp only [StartCall.Sound, phase] at sound
      obtain ⟨known, holds, blank⟩ := sound
      obtain ⟨memSound', _⟩ := memSound.init_step trans known blank
      refine ⟨memSound', ?_⟩
      rcases StartCall.resume_cases c.call i' with same | ⟨gone, _⟩ | ⟨outcome, st, pc, result, runs⟩
      · rw [same]
        exact ⟨(trans.forget_sound memSound.init known).2, trans.holds, fun pc =>
          InitCall.zeroed_self pc⟩
      · rw [gone]
        trivial
      · rw [runs]
        have read := trans.partly memSound.init known holds pc result
        exact ⟨read, c.call.enter_inTable (read.view memSound'.init).1⟩
  | @record st r r' table phase trans =>
      simp only [StartCall.Sound, phase] at sound
      obtain ⟨read, known⟩ := sound
      rw [read.base, ← StartMemory.table] at trans
      obtain ⟨memSound', table'⟩ := memSound.record_step read trans known
      refine ⟨memSound', read, ?_⟩
      rw [table']
      exact trans.sound_call (read.view memSound.init).1 known
  | @scan st q q' phase trans =>
      simp only [StartCall.Sound, phase] at sound
      exact ⟨memSound, sound.1, trans.below sound.2⟩

/-- A step leaves to the other calls what they know. -/
theorem StartCall.Trans.sound_other {i j : Nat} (trans : StartCall.Trans mem c mem' c')
    (memSound : mem.Sound) (sound : c.Sound mem) (soundOther : d.Sound mem)
    (at_i : ∀ ic, c.phase = .initialising ic → ic.index = i)
    (at_j : ∀ ic, d.phase = .initialising ic → ic.index = j) (other : j ≠ i) : d.Sound mem' := by
  cases trans with
  | @init ic ic' init phase trans =>
      simp only [StartCall.Sound, phase] at sound
      obtain ⟨known, _, blank⟩ := sound
      obtain ⟨memSound', table⟩ := memSound.init_step trans known blank
      have leaves : ∀ k, k ≠ i → mem.init.Leaves k init := by
        intro k others
        exact trans.forget_leaves memSound.init known (by rwa [at_i ic phase])
      unfold StartCall.Sound at soundOther ⊢
      split at soundOther
      case h_1 id phase' =>
          obtain ⟨known', holds', blank'⟩ := soundOther
          have index : id.index = j := at_j id phase'
          have knows : id.forget.Sound init := by
            refine known'.mono memSound.init ?_
            rw [id.forget_index, index]
            exact leaves j other
          refine ⟨knows, holds'.mono (leaves j other).statics, fun pc => ?_⟩
          rw [← blank' pc]
          refine InitCall.zeroed_of_ne fun pc' same => other ?_
          -- pages that two calls have mapped are apart
          have own := (trans.forget_sound memSound.init known).2
          simp only [InitCall.forget, InitCall.Sound, pc, pc'] at knows own
          have entry := memSound'.init.apart _ own.1 _ knows.1 same
          rw [← index, ← at_i ic phase, ← trans.index]
          exact (congrArg Prod.fst entry).symm
      case h_2 st p _ =>
          obtain ⟨read, known'⟩ := soundOther
          refine ⟨read.mono (leaves j other).statics, ?_⟩
          rw [table]
          exact known'
      case h_3 | h_4 => trivial
  | @record st r r' table phase trans =>
      simp only [StartCall.Sound, phase] at sound
      obtain ⟨read, known⟩ := sound
      rw [read.base, ← StartMemory.table] at trans
      obtain ⟨_, table'⟩ := memSound.record_step read trans known
      unfold StartCall.Sound at soundOther ⊢
      split at soundOther
      case h_1 id _ =>
          obtain ⟨known', holds', blank'⟩ := soundOther
          refine ⟨known', holds', fun pc => ?_⟩
          rw [← blank' pc]
          simp only [InitCall.forget, InitCall.Sound, pc] at known'
          refine Function.update_of_ne ?_ _ _
          rw [read.base]
          exact known'.2.symm
      case h_2 st' p _ =>
          obtain ⟨read', known'⟩ := soundOther
          refine ⟨read', ?_⟩
          rw [table']
          cases p with
          | record d => exact RecordCall.Sound.mono trans.hashKept known'
          | scan q => exact known'
      case h_3 | h_4 => trivial
  | @scan st q q' phase trans => exact soundOther

end ModAlloc
