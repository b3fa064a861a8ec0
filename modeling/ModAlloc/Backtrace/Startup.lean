import ModAlloc.Backtrace.Init
import ModAlloc.Backtrace.Published

/-!
# From the start of the process

`record` and `call_sites_report` on a process that has no table yet: each call runs
`ensure_init` step by step and then works on the table that it returned, whatever the
others do in between. The kernel zeroes the pages that it maps.

While the winner stores the bucket count and the mask, a call on the fast path or a
loser of the race can read them as zero, so that a call does not always work with the
statics of the table (`Statics.Partly`). This module says what every call knows of the
statics nevertheless; what it does to the table is the subject of
`ModAlloc.Backtrace.StartupTable`.
-/

namespace ModAlloc

open Interleaving Interleaving.Program

/-- The statics and the mapped regions, and the buckets behind each pointer. -/
structure StartMemory where
  init : InitMemory
  pages : Nat → Memory

/-- The process before its first event. -/
def StartMemory.initial : StartMemory := ⟨.initial, fun _ => .empty⟩

/-- The buckets behind `TABLE_BASE`. -/
def StartMemory.table (mem : StartMemory) : Memory := mem.pages mem.init.statics.base

/-- How far a call has come: it is in `ensure_init`; it works on the table that
`ensure_init` returned; there is no table; or it has no frames to record. -/
inductive StartPhase where
  | initialising (c : InitCall)
  | running (st : Statics) (p : Proc)
  | noTable
  | noFrames

structure StartCall where
  call : Call
  phase : StartPhase

/-- Behind `ensure_init`. -/
def Call.enter (st : Statics) : Call → Proc
  | .record frames size =>
      let c := RecordCall.init frames size
      .record { c with pc := .probe (c.start st) }
  | .report => .scan { ScanCall.init with pc := ScanCall.loop st 0 }

/-- The buckets behind each pointer, where a step of `ensure_init` has ended in this: the
pages behind `alloc_pages` are zero. -/
def InitCall.zeroed (c : InitCall) (pages : Nat → Memory) : Nat → Memory :=
  if c.pc = .publish then Function.update pages c.pages .empty else pages

theorem InitCall.zeroed_self {c : InitCall} {pages : Nat → Memory} (pc : c.pc = .publish) :
    c.zeroed pages c.pages = Memory.empty := by
  rw [zeroed, if_pos pc, Function.update_self]

theorem InitCall.zeroed_of_ne {c : InitCall} {pages : Nat → Memory} {ptr : Nat}
    (other : c.pc = .publish → c.pages ≠ ptr) : c.zeroed pages ptr = pages ptr := by
  unfold zeroed
  split
  · rw [Function.update_of_ne (other ‹_›).symm]
  · rfl

namespace StartCall

/-- Entry of the call: a capture without frames does not get to `ensure_init`. -/
def init (index : Nat) (env : Option (List Char)) (call : Call) : StartCall :=
  match call with
  | .record frames _ =>
      ⟨call, if frames.count.val = 0 then .noFrames else .initialising (.init index env)⟩
  | .report => ⟨call, .initialising (.init index env)⟩

/-- The call with its `ensure_init` at this point. -/
def resume (call : Call) (c : InitCall) : StartCall :=
  match c.pc with
  | .returned outcome =>
      match outcome.result with
      | some st => ⟨call, .running st (call.enter st)⟩
      | none => ⟨call, .noTable⟩
  | _ => ⟨call, .initialising c⟩

/-- One atomic step; `answer` is what `alloc_pages` returns. -/
def step (mem : StartMemory) (c : StartCall) (answer : Nat) : Option (StartMemory × StartCall) :=
  match c.phase with
  | .initialising i =>
      (i.step mem.init answer).map fun (init, i') => (⟨init, i'.zeroed mem.pages⟩, resume c.call i')
  | .running st p =>
      (p.step st (mem.pages st.base)).map fun (table, p') =>
        ({ mem with pages := Function.update mem.pages st.base table }, ⟨c.call, .running st p'⟩)
  | .noTable | .noFrames => none

end StartCall

/-- Any number of `record` and `call_sites_report` calls, each with what its thread sees
as `MOD_ALLOC_BUCKETS`. -/
def startProgram : Program StartMemory StartCall (Option (List Char) × Call) Nat where
  start mem index arg := some (mem, .init index arg.1 arg.2)
  act mem _ c answer := c.step mem answer

abbrev StartState := Pool StartMemory StartCall

def StartState.initial : StartState := ⟨StartMemory.initial, []⟩

/-! ## What a call knows without its loads -/

variable {mem mem' : InitMemory} {c c' d : InitCall}

/-- The call with its loads of the bucket count and the mask taken back. -/
def InitCall.forget (c : InitCall) : InitCall :=
  match c.pc with
  | .loadBuckets existing | .loadMask existing _ | .awaitMask existing _ =>
      { c with pc := .awaitBuckets existing }
  | .returned (.found r) | .returned (.lost r) => { c with pc := .awaitBuckets r.base }
  | _ => c

theorem InitCall.forget_index (c : InitCall) : c.forget.index = c.index := by
  unfold forget
  split <;> rfl

theorem InitCall.Sound.forget (sound : c.Sound mem) : c.forget.Sound mem := by
  unfold InitCall.forget
  split
  case h_1 pc =>
      simp only [InitCall.Sound, pc] at sound
      exact sound
  case h_2 pc | h_3 pc =>
      simp only [InitCall.Sound, pc] at sound
      exact ⟨sound.1, sound.2.1⟩
  case h_4 r pc | h_5 r pc =>
      simp only [InitCall.Sound, pc] at sound
      obtain ⟨rfl, base, _⟩ := sound
      exact ⟨rfl, base⟩
  case h_6 => exact sound

/-- A step that changes the memory rests on nothing that was loaded. -/
theorem InitCall.Trans.unchanged_or_forget (trans : InitCall.Trans mem c mem' c') :
    mem' = mem ∨ c.forget = c := by
  cases trans with
  | alloc pc | win pc | storeBuckets pc | storeMask pc | freePages pc =>
      exact .inr (by simp only [InitCall.forget, pc])
  | _ => exact .inl rfl

theorem InitCall.Trans.forget_leaves (trans : InitCall.Trans mem c mem' c') (memSound : mem.Sound)
    (sound : c.forget.Sound mem) {i : Nat} (other : i ≠ c.index) : mem.Leaves i mem' := by
  rcases trans.unchanged_or_forget with rfl | same
  · exact ⟨.refl _, fun _ mapped => mapped, fun _ _ ne => ne⟩
  · rw [same] at sound
    exact trans.leaves memSound sound other

/-- **A step keeps the memory sound, and what its call knows without its loads.** -/
theorem InitCall.Trans.forget_sound (trans : InitCall.Trans mem c mem' c') (memSound : mem.Sound)
    (sound : c.forget.Sound mem) : mem'.Sound ∧ c'.forget.Sound mem' := by
  have whole : c.forget = c → c.relyOn mem.statics = none → mem'.Sound ∧ c'.forget.Sound mem' := by
    intro same none
    rw [same] at sound
    obtain ⟨memSound', sound'⟩ := trans.sound memSound sound fun v loads => by
      rw [none] at loads
      cases loads
    exact ⟨memSound', sound'.forget⟩
  cases trans with
  | seeBase pc nonnull => exact ⟨memSound, rfl, nonnull⟩
  | loadBuckets pc | loadMask pc | awaitMask pc =>
      simp only [InitCall.forget, pc] at sound
      exact ⟨memSound, sound⟩
  | seeNull pc | allocFails pc | alloc pc | win pc | lose pc | storeBuckets pc | storeMask pc
  | freePages pc | spin pc | seeBuckets pc =>
      exact whole (by simp only [InitCall.forget, pc]) (by simp only [InitCall.relyOn, pc])

/-! ## Statics as they were read -/

/-- Statics that a call has read: the base, and the bucket count and the mask as they
are or as they were before they had been stored. -/
structure Statics.Partly (st cur : Statics) : Prop where
  base : st.base = cur.base
  nonnull : cur.base ≠ 0
  buckets : st.buckets = 0 ∨ st.buckets = cur.buckets
  mask : st.mask = 0 ∨ st.mask = cur.mask

/-- A value read as zero or as it was stays one when what was stored is kept. -/
theorem zero_or_kept {x y z : Nat} (read : x = 0 ∨ x = y) (kept : y ≠ 0 → z = y) :
    x = 0 ∨ x = z := by
  rcases read with zero | rfl
  · exact .inl zero
  · by_cases zero : x = 0
    · exact .inl zero
    · exact .inr (kept zero).symm

theorem Statics.Partly.mono {st cur cur' : Statics} (read : st.Partly cur) (kept : cur.Kept cur') :
    st.Partly cur' where
  base := read.base.trans (kept.base read.nonnull).symm
  nonnull := by
    rw [kept.base read.nonnull]
    exact read.nonnull
  buckets := zero_or_kept read.buckets kept.buckets
  mask := zero_or_kept read.mask kept.mask

/-- The bucket count that a call has in hand. -/
def InitCall.Holds (st : Statics) (c : InitCall) : Prop :=
  match c.pc with
  | .loadMask _ b | .awaitMask _ b => b = 0 ∨ b = st.buckets
  | _ => True

theorem InitCall.Holds.mono {st st' : Statics} (holds : c.Holds st) (kept : st.Kept st') :
    c.Holds st' := by
  unfold InitCall.Holds at holds ⊢
  split at holds
  · exact zero_or_kept holds kept.buckets
  · exact zero_or_kept holds kept.buckets
  · trivial

theorem InitCall.Trans.holds (trans : InitCall.Trans mem c mem' c') : c'.Holds mem'.statics := by
  cases trans with
  | loadBuckets pc => exact .inr rfl
  | seeBuckets pc count => exact .inr rfl
  | _ => trivial

/-- **What `ensure_init` returns has been read from the statics.** -/
theorem InitCall.Trans.partly (trans : InitCall.Trans mem c mem' c') (memSound : mem.Sound)
    (sound : c.forget.Sound mem) (holds : c.Holds mem.statics) {outcome : InitOutcome} {st : Statics}
    (pc : c'.pc = .returned outcome) (result : outcome.result = some st) :
    st.Partly mem'.statics := by
  cases trans with
  | allocFails _ => cases pc; cases result
  | @loadMask existing b at_pc | @awaitMask existing b at_pc =>
      cases pc
      cases result
      simp only [InitCall.forget, at_pc] at sound
      simp only [InitCall.Holds, at_pc] at holds
      obtain ⟨rfl, nonnull⟩ := sound
      exact ⟨rfl, nonnull, holds, .inr rfl⟩
  | storeMask at_pc =>
      cases pc
      cases result
      simp only [InitCall.forget, InitCall.Sound, at_pc] at sound
      obtain ⟨own, base, buckets⟩ := sound
      exact ⟨base.symm, base ▸ (memSound.region _ own).1, .inr buckets.symm, .inr rfl⟩
  | _ => cases pc

/-! ## The size of the table -/

/-- The number of buckets mapped behind `TABLE_BASE`. -/
def InitMemory.capacity (mem : InitMemory) : Nat :=
  ((mem.live.find? fun r => r.2.ptr = mem.statics.base).map fun r => r.2.bytes / bucketSize).getD 0

theorem InitMemory.Sound.capacity_eq (sound : mem.Sound) {owner n : Nat}
    (region : (owner, ⟨mem.statics.base, n * bucketSize⟩) ∈ mem.live) : mem.capacity = n := by
  unfold InitMemory.capacity
  cases found : mem.live.find? fun r => decide (r.2.ptr = mem.statics.base) with
  | none =>
      have absent := List.find?_eq_none.mp found _ region
      simp only [decide_true, not_true_eq_false] at absent
  | some r =>
      have isBase := List.find?_some found
      simp only [decide_eq_true_eq] at isBase
      rw [sound.apart r (List.mem_of_find?_eq_some found) _ region isBase]
      exact Nat.mul_div_cancel n (by decide)

/-- Behind a base that has been published there is a table of a configured size, and
the statics describe it as far as they have been stored. -/
theorem InitMemory.Sound.table (sound : mem.Sound) (set : mem.statics.base ≠ 0) :
    ∃ owner env, mem.capacity = configuredBucketCount env ∧
      (owner, ⟨mem.statics.base, mem.capacity * bucketSize⟩) ∈ mem.live ∧
      (mem.statics.buckets = 0 ∨ mem.statics.buckets = mem.capacity) ∧
      (mem.statics.mask = 0 ∨ mem.statics.mask = mem.capacity - 1) := by
  obtain ⟨owner, env, region, buckets, mask⟩ := sound.set set
  have capacity := sound.capacity_eq region
  rw [capacity]
  exact ⟨owner, env, rfl, region, buckets, mask⟩

/-- The step of another call, or of one that does not own the base, keeps the table. -/
theorem InitCall.Trans.capacity (trans : InitCall.Trans mem c mem' c') (memSound : mem.Sound)
    (sound : c.forget.Sound mem) (set : mem.statics.base ≠ 0) :
    mem'.statics.base = mem.statics.base ∧ mem'.capacity = mem.capacity := by
  obtain ⟨owner, env, _, region, _⟩ := memSound.table set
  have memSound' := (trans.forget_sound memSound sound).1
  have base : mem'.statics.base = mem.statics.base := by
    rcases trans.base_cases with same | ⟨null, _⟩
    · exact same
    · exact absurd null set
  suffices region' : (owner, ⟨mem'.statics.base, mem.capacity * bucketSize⟩) ∈ mem'.live from
    ⟨base, memSound'.capacity_eq region'⟩
  rw [base]
  cases trans with
  | alloc _ _ _ => exact List.mem_append_left _ region
  | freePages pc =>
      simp only [InitCall.forget, InitCall.Sound, pc] at sound
      obtain ⟨_, unpublished, _⟩ := sound
      exact List.mem_filter.mpr ⟨region, decide_eq_true fun same => unpublished (congrArg Pages.ptr same)⟩
  | _ => exact region

end ModAlloc
