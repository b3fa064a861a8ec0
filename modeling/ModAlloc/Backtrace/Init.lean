import ModAlloc.Backtrace.Table

/-!
# Publishing the table

`ensure_init` and `ensure_init_slow` as processes over the three statics and the
page mappings. The statics are stored one after the other: base by the
compare-exchange, then the bucket count, then the mask. A caller on the fast
path that comes in between reads a count or a mask that is still zero
(`ensureInit_disagrees`); the loser of the race waits for the count, but not for
the mask.

`ensureInit_agrees`: where no caller loads a static that has not been stored
yet, every result is the one table of the winner, and the losers give back
exactly the pages they mapped.
-/

namespace ModAlloc

open Interleaving Interleaving.Program

/-- `BUCKET_SIZE`: twelve words. -/
def bucketSize : Nat := 96

/-- A region that `alloc_pages` has returned. -/
structure Pages where
  ptr : Nat
  bytes : Nat
deriving DecidableEq, Repr

/-- The statics; the mapped regions, each with the call that mapped it; and the
`free_pages` calls so far, each with its caller. -/
structure InitMemory where
  statics : Statics
  live : List (Nat × Pages)
  freed : List (Nat × Pages)
deriving DecidableEq, Repr

/-- The process before its first event. -/
def InitMemory.initial : InitMemory := ⟨⟨0, 0, 0⟩, [], []⟩

/-- The kernel maps new pages where nothing is mapped. -/
def InitMemory.Fresh (mem : InitMemory) (ptr bytes : Nat) : Prop :=
  ∀ r ∈ mem.live, ptr + bytes ≤ r.2.ptr ∨ r.2.ptr + r.2.bytes ≤ ptr

instance (mem : InitMemory) (ptr bytes : Nat) : Decidable (mem.Fresh ptr bytes) :=
  inferInstanceAs (Decidable (∀ r ∈ mem.live, _))

/-- How `ensure_init` ends. -/
inductive InitOutcome where
  /-- The base was there. -/
  | found (result : Statics)
  /-- This call published the base. -/
  | won (result : Statics)
  /-- Another call published the base first. -/
  | lost (result : Statics)
  /-- `alloc_pages` returned null. -/
  | failed
deriving DecidableEq, Repr

/-- The value `ensure_init` returns. -/
def InitOutcome.result : InitOutcome → Option Statics
  | .found r | .won r | .lost r => some r
  | .failed => none

/-- The next atomic step of an `ensure_init` call. -/
inductive InitPc where
  /-- `TABLE_BASE.load` -/
  | loadBase
  /-- `TABLE_BUCKETS.load` on the fast path -/
  | loadBuckets (existing : Nat)
  /-- `TABLE_MASK.load` on the fast path -/
  | loadMask (existing buckets : Nat)
  /-- `alloc_pages(bytes)` -/
  | allocPages
  /-- `TABLE_BASE.compare_exchange(null, new_base)` -/
  | publish
  /-- `TABLE_BUCKETS.store` of the winner -/
  | storeBuckets
  /-- `TABLE_MASK.store` of the winner -/
  | storeMask
  /-- `free_pages(pages, bytes)` of the loser -/
  | freePages (other : Nat)
  /-- `TABLE_BUCKETS.load` in the loser's loop -/
  | awaitBuckets (other : Nat)
  /-- `TABLE_MASK.load` of the loser -/
  | awaitMask (other buckets : Nat)
  | returned (outcome : InitOutcome)
deriving DecidableEq, Repr

/-- The `index`-th `ensure_init` call, on a thread that sees `env` as
`MOD_ALLOC_BUCKETS`; `pages` is null until pages are mapped. -/
structure InitCall where
  index : Nat
  env : Option (List Char)
  pages : Nat
  pc : InitPc
deriving DecidableEq, Repr

namespace InitCall

def init (index : Nat) (env : Option (List Char)) : InitCall :=
  { index, env, pages := 0, pc := .loadBase }

def buckets (c : InitCall) : Nat := configuredBucketCount c.env

def bytes (c : InitCall) : Nat := c.buckets * bucketSize

/-- The pages the call has mapped, as its own. -/
def own (c : InitCall) : Nat × Pages := (c.index, ⟨c.pages, c.bytes⟩)

/-- One atomic step; `answer` is what `alloc_pages` returns. -/
def step (mem : InitMemory) (c : InitCall) (answer : Nat) : Option (InitMemory × InitCall) :=
  match c.pc with
  | .loadBase =>
      let existing := mem.statics.base
      some (mem, { c with pc := if existing = 0 then .allocPages else .loadBuckets existing })
  | .loadBuckets existing => some (mem, { c with pc := .loadMask existing mem.statics.buckets })
  | .loadMask existing buckets =>
      some (mem, { c with pc := .returned (.found ⟨existing, buckets, mem.statics.mask⟩) })
  | .allocPages =>
      if answer = 0 then some (mem, { c with pc := .returned .failed })
      else if mem.Fresh answer c.bytes then
        some ({ mem with live := mem.live ++ [(c.index, ⟨answer, c.bytes⟩)] },
          { c with pages := answer, pc := .publish })
      else none
  | .publish =>
      let other := mem.statics.base
      if other = 0 then
        some ({ mem with statics := { mem.statics with base := c.pages } },
          { c with pc := .storeBuckets })
      else some (mem, { c with pc := .freePages other })
  | .storeBuckets =>
      some ({ mem with statics := { mem.statics with buckets := c.buckets } },
        { c with pc := .storeMask })
  | .storeMask =>
      some ({ mem with statics := { mem.statics with mask := c.buckets - 1 } },
        { c with pc := .returned (.won ⟨c.pages, c.buckets, c.buckets - 1⟩) })
  | .freePages other =>
      some ({ mem with live := mem.live.filter fun r => r.2 ≠ ⟨c.pages, c.bytes⟩
                       freed := mem.freed ++ [c.own] },
        { c with pc := .awaitBuckets other })
  | .awaitBuckets other =>
      let b := mem.statics.buckets
      some (mem, { c with pc := if 0 < b then .awaitMask other b else .awaitBuckets other })
  | .awaitMask other b =>
      some (mem, { c with pc := .returned (.lost ⟨other, b, mem.statics.mask⟩) })
  | .returned _ => none

/-- What one step of `ensure_init` does. -/
inductive Trans (mem : InitMemory) (c : InitCall) : InitMemory → InitCall → Prop
  | seeNull : c.pc = .loadBase → mem.statics.base = 0 →
    Trans mem c mem { c with pc := .allocPages }
  | seeBase : c.pc = .loadBase → mem.statics.base ≠ 0 →
    Trans mem c mem { c with pc := .loadBuckets mem.statics.base }
  | loadBuckets {existing : Nat} : c.pc = .loadBuckets existing →
    Trans mem c mem { c with pc := .loadMask existing mem.statics.buckets }
  | loadMask {existing buckets : Nat} : c.pc = .loadMask existing buckets →
    Trans mem c mem { c with pc := .returned (.found ⟨existing, buckets, mem.statics.mask⟩) }
  | allocFails : c.pc = .allocPages → Trans mem c mem { c with pc := .returned .failed }
  | alloc {ptr : Nat} : c.pc = .allocPages → ptr ≠ 0 → mem.Fresh ptr c.bytes →
    Trans mem c { mem with live := mem.live ++ [(c.index, ⟨ptr, c.bytes⟩)] }
      { c with pages := ptr, pc := .publish }
  | win : c.pc = .publish → mem.statics.base = 0 →
    Trans mem c { mem with statics := { mem.statics with base := c.pages } }
      { c with pc := .storeBuckets }
  | lose : c.pc = .publish → mem.statics.base ≠ 0 →
    Trans mem c mem { c with pc := .freePages mem.statics.base }
  | storeBuckets : c.pc = .storeBuckets →
    Trans mem c { mem with statics := { mem.statics with buckets := c.buckets } }
      { c with pc := .storeMask }
  | storeMask : c.pc = .storeMask →
    Trans mem c { mem with statics := { mem.statics with mask := c.buckets - 1 } }
      { c with pc := .returned (.won ⟨c.pages, c.buckets, c.buckets - 1⟩) }
  | freePages {other : Nat} : c.pc = .freePages other →
    Trans mem c
      { mem with live := mem.live.filter fun r => r.2 ≠ ⟨c.pages, c.bytes⟩
                 freed := mem.freed ++ [c.own] }
      { c with pc := .awaitBuckets other }
  | spin {other : Nat} : c.pc = .awaitBuckets other →
    Trans mem c mem { c with pc := .awaitBuckets other }
  | seeBuckets {other : Nat} : c.pc = .awaitBuckets other → mem.statics.buckets ≠ 0 →
    Trans mem c mem { c with pc := .awaitMask other mem.statics.buckets }
  | awaitMask {other buckets : Nat} : c.pc = .awaitMask other buckets →
    Trans mem c mem { c with pc := .returned (.lost ⟨other, buckets, mem.statics.mask⟩) }

theorem trans_of_step {mem mem' : InitMemory} {c c' : InitCall} {answer : Nat}
    (stepped : c.step mem answer = some (mem', c')) : Trans mem c mem' c' := by
  unfold step at stepped
  split at stepped
  case h_1 pc =>
    cases stepped
    split
    · exact .seeNull pc ‹_›
    · exact .seeBase pc ‹_›
  case h_2 existing pc => cases stepped; exact .loadBuckets pc
  case h_3 existing buckets pc => cases stepped; exact .loadMask pc
  case h_4 pc =>
    split at stepped
    · cases stepped
      exact .allocFails pc
    · split at stepped
      · cases stepped
        exact .alloc pc ‹_› ‹_›
      · cases stepped
  case h_5 pc =>
    dsimp only at stepped
    split at stepped
    · cases stepped
      exact .win pc ‹_›
    · cases stepped
      exact .lose pc ‹_›
  case h_6 pc => cases stepped; exact .storeBuckets pc
  case h_7 pc => cases stepped; exact .storeMask pc
  case h_8 other pc => cases stepped; exact .freePages pc
  case h_9 other pc =>
    cases stepped
    split
    · exact .seeBuckets pc (Nat.ne_of_gt ‹_›)
    · exact .spin pc
  case h_10 other buckets pc => cases stepped; exact .awaitMask pc
  case h_11 => cases stepped

end InitCall

/-- Any number of `ensure_init` calls, each started with what its thread sees as
`MOD_ALLOC_BUCKETS`. -/
def initProgram : Program InitMemory InitCall (Option (List Char)) Nat where
  start mem index env := some (mem, InitCall.init index env)
  act mem _ c answer := c.step mem answer

abbrev InitState := Pool InitMemory InitCall

def InitState.initial : InitState := ⟨InitMemory.initial, []⟩

/-- The static that the next step loads and the result will rest on. -/
def InitCall.relyOn (st : Statics) (c : InitCall) : Option Nat :=
  match c.pc with
  | .loadBuckets _ => some st.buckets
  | .loadMask _ _ | .awaitMask _ _ => some st.mask
  | _ => none

/-- No caller loads a bucket count on the fast path, or a mask, before it has
been stored. -/
def loadsStored (s : InitState) : Move (Option (List Char)) Nat → Prop
  | .start _ => True
  | .act i _ => ∀ c ∈ s.procs[i]?, ∀ v ∈ c.relyOn s.shared.statics, v ≠ 0

instance (s : InitState) : ∀ m, Decidable (loadsStored s m)
  | .start _ => inferInstanceAs (Decidable True)
  | .act i _ =>
      inferInstanceAs (Decidable (∀ c ∈ s.procs[i]?, ∀ v ∈ c.relyOn s.shared.statics, v ≠ 0))

/-! ## What a call knows -/

variable {mem mem' : InitMemory} {c c' d : InitCall}

/-- The regions are apart, and the statics describe the region at the base as far
as they have been stored. -/
structure InitMemory.Sound (mem : InitMemory) : Prop where
  apart : ∀ r ∈ mem.live, ∀ r' ∈ mem.live, r.2.ptr = r'.2.ptr → r = r'
  region : ∀ r ∈ mem.live, r.2.ptr ≠ 0 ∧ 0 < r.2.bytes
  unset : mem.statics.base = 0 → mem.statics = ⟨0, 0, 0⟩ ∧ mem.freed = []
  set : mem.statics.base ≠ 0 → ∃ owner env,
    (owner, ⟨mem.statics.base, configuredBucketCount env * bucketSize⟩) ∈ mem.live ∧
      (mem.statics.buckets = 0 ∨ mem.statics.buckets = configuredBucketCount env) ∧
      (mem.statics.mask = 0 ∨ mem.statics.mask = configuredBucketCount env - 1)
  kept : ∀ r ∈ mem.freed, r.2.ptr ≠ mem.statics.base

/-- Every static has been stored. -/
def Statics.Stored (st : Statics) : Prop := st.base ≠ 0 ∧ st.buckets ≠ 0 ∧ st.mask ≠ 0

/-- What an `ensure_init` call in progress knows of the statics and of the pages
it has mapped. -/
def InitCall.Sound (mem : InitMemory) (c : InitCall) : Prop :=
  match c.pc with
  | .loadBase | .allocPages | .returned .failed => True
  | .loadBuckets existing => existing = mem.statics.base ∧ existing ≠ 0
  | .loadMask existing b =>
      existing = mem.statics.base ∧ existing ≠ 0 ∧ b = mem.statics.buckets ∧ b ≠ 0
  | .publish => c.own ∈ mem.live ∧ mem.statics.base ≠ c.pages
  | .storeBuckets => c.own ∈ mem.live ∧ mem.statics.base = c.pages
  | .storeMask =>
      c.own ∈ mem.live ∧ mem.statics.base = c.pages ∧ mem.statics.buckets = c.buckets
  | .freePages other =>
      c.own ∈ mem.live ∧ mem.statics.base ≠ c.pages ∧ other = mem.statics.base ∧ other ≠ 0
  | .awaitBuckets other => other = mem.statics.base ∧ other ≠ 0
  | .awaitMask other b =>
      other = mem.statics.base ∧ other ≠ 0 ∧ b = mem.statics.buckets ∧ b ≠ 0
  | .returned (.found r) | .returned (.lost r) => r = mem.statics ∧ mem.statics.Stored
  | .returned (.won r) =>
      c.own ∈ mem.live ∧ r = mem.statics ∧ r = ⟨c.pages, c.buckets, c.buckets - 1⟩

/-- A static that has been stored does not change. -/
structure Statics.Kept (st st' : Statics) : Prop where
  base : st.base ≠ 0 → st'.base = st.base
  buckets : st.buckets ≠ 0 → st'.buckets = st.buckets
  mask : st.mask ≠ 0 → st'.mask = st.mask

theorem Statics.Kept.refl (st : Statics) : st.Kept st := ⟨fun _ => rfl, fun _ => rfl, fun _ => rfl⟩

theorem Statics.Kept.eq {st st' : Statics} (kept : st.Kept st') (stored : st.Stored) : st' = st := by
  obtain ⟨base, buckets, mask⟩ := stored
  cases st
  cases st'
  simp only [Statics.mk.injEq]
  exact ⟨kept.base base, kept.buckets buckets, kept.mask mask⟩

/-- What the step of one call leaves to the call `i`. -/
structure InitMemory.Leaves (i : Nat) (mem mem' : InitMemory) : Prop where
  statics : mem.statics.Kept mem'.statics
  own : ∀ p, (i, p) ∈ mem.live → (i, p) ∈ mem'.live
  unpublished : ∀ p, (i, p) ∈ mem.live → mem.statics.base ≠ p.ptr → mem'.statics.base ≠ p.ptr

theorem InitCall.buckets_ge (c : InitCall) : 64 ≤ c.buckets := by
  obtain ⟨k, low, _, eq⟩ := configuredBucketCount_cases c.env
  calc 64 = 2 ^ 6 := rfl
    _ ≤ 2 ^ k := Nat.pow_le_pow_right (by decide) low
    _ = c.buckets := eq.symm

/-- The base of a sound memory, where this call has published its pages. -/
theorem InitMemory.Sound.published (sound : mem.Sound) (own : c.own ∈ mem.live)
    (base : mem.statics.base = c.pages) :
    (mem.statics.buckets = 0 ∨ mem.statics.buckets = c.buckets) ∧
      (mem.statics.mask = 0 ∨ mem.statics.mask = c.buckets - 1) := by
  have nonnull : mem.statics.base ≠ 0 := base ▸ (sound.region _ own).1
  obtain ⟨owner, env, region, buckets, mask⟩ := sound.set nonnull
  have same := sound.apart _ region _ own base
  have count : configuredBucketCount env = c.buckets := by
    have bytes : configuredBucketCount env * bucketSize = c.buckets * bucketSize :=
      congrArg (fun r => r.2.bytes) same
    exact Nat.eq_of_mul_eq_mul_right (by decide) bytes
  rw [count] at buckets mask
  exact ⟨buckets, mask⟩

/-- **A step of one call respects what the others know.** -/
theorem InitCall.Trans.leaves (trans : InitCall.Trans mem c mem' c') (memSound : mem.Sound)
    (sound : c.Sound mem) {i : Nat} (other : i ≠ c.index) : mem.Leaves i mem' := by
  cases trans with
  | @alloc ptr pc nonnull fresh =>
      exact ⟨.refl _, fun p mapped => List.mem_append_left _ mapped, fun _ _ ne => ne⟩
  | win pc null =>
      simp only [InitCall.Sound, pc] at sound
      refine ⟨⟨fun set => absurd null set, fun _ => rfl, fun _ => rfl⟩, fun _ mapped => mapped, ?_⟩
      intro p mapped _ same
      have entry := memSound.apart _ sound.1 _ mapped same
      exact other (congrArg Prod.fst entry).symm
  | storeBuckets pc =>
      simp only [InitCall.Sound, pc] at sound
      refine ⟨⟨fun _ => rfl, fun stored => ?_, fun _ => rfl⟩, fun _ mapped => mapped,
        fun _ _ ne => ne⟩
      exact ((memSound.published sound.1 sound.2).1.resolve_left stored).symm
  | storeMask pc =>
      simp only [InitCall.Sound, pc] at sound
      refine ⟨⟨fun _ => rfl, fun _ => rfl, fun stored => ?_⟩, fun _ mapped => mapped,
        fun _ _ ne => ne⟩
      exact ((memSound.published sound.1 sound.2.1).2.resolve_left stored).symm
  | freePages pc =>
      simp only [InitCall.Sound, pc] at sound
      refine ⟨.refl _, fun p mapped => ?_, fun _ _ ne => ne⟩
      refine List.mem_filter.mpr ⟨mapped, decide_eq_true fun same => ?_⟩
      have entry := memSound.apart _ mapped _ sound.1 (congrArg Pages.ptr same)
      exact other (congrArg Prod.fst entry)
  | _ => exact ⟨.refl _, fun _ mapped => mapped, fun _ _ ne => ne⟩

/-- What a call knows survives the steps of the others. -/
theorem InitCall.Sound.mono (memSound : mem.Sound) (leaves : mem.Leaves d.index mem')
    (sound : d.Sound mem) : d.Sound mem' := by
  have seen : ∀ {x}, x = mem.statics.base → x ≠ 0 → x = mem'.statics.base := by
    intro x eq nonnull
    rw [leaves.statics.base (eq ▸ nonnull), eq]
  have count : ∀ {b}, b = mem.statics.buckets → b ≠ 0 → b = mem'.statics.buckets := by
    intro b eq stored
    rw [leaves.statics.buckets (eq ▸ stored), eq]
  have published : d.own ∈ mem.live → mem.statics.base = d.pages →
      mem'.statics.base = d.pages := by
    intro own base
    exact (seen base.symm (memSound.region _ own).1).symm
  unfold InitCall.Sound at sound ⊢
  split at sound
  case h_1 | h_2 | h_3 => trivial
  case h_4 =>
    obtain ⟨base, nonnull⟩ := sound
    exact ⟨seen base nonnull, nonnull⟩
  case h_5 =>
    obtain ⟨base, nonnull, buckets, stored⟩ := sound
    exact ⟨seen base nonnull, nonnull, count buckets stored, stored⟩
  case h_6 =>
    obtain ⟨own, base⟩ := sound
    exact ⟨leaves.own _ own, leaves.unpublished _ own base⟩
  case h_7 =>
    obtain ⟨own, base⟩ := sound
    exact ⟨leaves.own _ own, published own base⟩
  case h_8 =>
    obtain ⟨own, base, buckets⟩ := sound
    have positive : d.buckets ≠ 0 := by
      have := d.buckets_ge
      omega
    exact ⟨leaves.own _ own, published own base, (count buckets.symm positive).symm⟩
  case h_9 =>
    obtain ⟨own, base, seenBase, nonnull⟩ := sound
    exact ⟨leaves.own _ own, leaves.unpublished _ own base, seen seenBase nonnull, nonnull⟩
  case h_10 =>
    obtain ⟨base, nonnull⟩ := sound
    exact ⟨seen base nonnull, nonnull⟩
  case h_11 =>
    obtain ⟨base, nonnull, buckets, stored⟩ := sound
    exact ⟨seen base nonnull, nonnull, count buckets stored, stored⟩
  case h_12 | h_13 =>
    obtain ⟨result, stored⟩ := sound
    have same := leaves.statics.eq stored
    rw [same]
    exact ⟨result, stored⟩
  case h_14 =>
    obtain ⟨own, result, table⟩ := sound
    have := d.buckets_ge
    have stored : mem.statics.Stored := by
      rw [← result, table]
      exact ⟨(memSound.region _ own).1, by dsimp only; omega, by dsimp only; omega⟩
    rw [leaves.statics.eq stored]
    exact ⟨leaves.own _ own, result, table⟩

theorem InitMemory.Sound.initial : InitMemory.initial.Sound where
  apart := fun _ mapped => by cases mapped
  region := fun _ mapped => by cases mapped
  unset := fun _ => ⟨rfl, rfl⟩
  set := fun nonnull => absurd rfl nonnull
  kept := fun _ freed => by cases freed

/-- Mapping fresh pages. -/
theorem InitMemory.Sound.alloc {i ptr bytes : Nat} (sound : mem.Sound) (nonnull : ptr ≠ 0)
    (positive : 0 < bytes) (fresh : mem.Fresh ptr bytes) :
    InitMemory.Sound { mem with live := mem.live ++ [(i, ⟨ptr, bytes⟩)] } := by
  have elsewhere : ∀ r ∈ mem.live, r.2.ptr ≠ ptr := by
    intro r mapped same
    have := (sound.region r mapped).2
    have := fresh r mapped
    omega
  refine ⟨?_, ?_, sound.unset, ?_, sound.kept⟩
  · intro r mapped r' mapped' same
    simp only [List.mem_append, List.mem_singleton] at mapped mapped'
    rcases mapped with old | rfl <;> rcases mapped' with old' | rfl
    · exact sound.apart r old r' old' same
    · exact absurd same (elsewhere r old)
    · exact absurd same.symm (elsewhere r' old')
    · rfl
  · intro r mapped
    simp only [List.mem_append, List.mem_singleton] at mapped
    rcases mapped with old | rfl
    · exact sound.region r old
    · exact ⟨nonnull, positive⟩
  · intro set
    obtain ⟨owner, env, region, rest⟩ := sound.set set
    exact ⟨owner, env, List.mem_append_left _ region, rest⟩

/-- Giving back pages that are not the published ones. -/
theorem InitMemory.Sound.free (sound : mem.Sound) (set : mem.statics.base ≠ 0)
    (unpublished : mem.statics.base ≠ c.pages) :
    InitMemory.Sound { mem with live := mem.live.filter fun r => r.2 ≠ ⟨c.pages, c.bytes⟩
                                freed := mem.freed ++ [c.own] } where
  apart := fun r mapped r' mapped' =>
    sound.apart r (List.mem_filter.mp mapped).1 r' (List.mem_filter.mp mapped').1
  region := fun r mapped => sound.region r (List.mem_filter.mp mapped).1
  unset := fun null => absurd null set
  set := by
    intro _
    obtain ⟨owner, env, region, rest⟩ := sound.set set
    refine ⟨owner, env, List.mem_filter.mpr ⟨region, decide_eq_true fun same => ?_⟩, rest⟩
    exact unpublished (congrArg Pages.ptr same)
  kept := by
    intro r freed
    simp only [List.mem_append, List.mem_singleton] at freed
    rcases freed with old | rfl
    · exact sound.kept r old
    · exact unpublished.symm

/-- **A step that relies on stored statics only keeps the memory and its call sound.** -/
theorem InitCall.Trans.sound (trans : InitCall.Trans mem c mem' c') (memSound : mem.Sound)
    (sound : c.Sound mem) (stored : ∀ v ∈ c.relyOn mem.statics, v ≠ 0) :
    mem'.Sound ∧ c'.Sound mem' := by
  have many := c.buckets_ge
  cases trans with
  | seeNull pc null => exact ⟨memSound, trivial⟩
  | seeBase pc nonnull => exact ⟨memSound, rfl, nonnull⟩
  | loadBuckets pc =>
      simp only [InitCall.Sound, InitCall.relyOn, pc, Option.mem_some_iff, forall_eq'] at sound stored
      exact ⟨memSound, sound.1, sound.2, rfl, stored⟩
  | loadMask pc =>
      simp only [InitCall.Sound, InitCall.relyOn, pc, Option.mem_some_iff, forall_eq'] at sound stored
      obtain ⟨rfl, nonnull, rfl, count⟩ := sound
      exact ⟨memSound, rfl, nonnull, count, stored⟩
  | allocFails pc => exact ⟨memSound, trivial⟩
  | @alloc ptr pc nonnull fresh =>
      have positive : 0 < c.bytes := Nat.mul_pos (by omega) (by decide)
      refine ⟨memSound.alloc nonnull positive fresh, ?_, ?_⟩
      · exact List.mem_append_right _ (List.mem_singleton_self _)
      · intro same
        obtain ⟨owner, env, region, _⟩ := memSound.set (same ▸ nonnull)
        have := (memSound.region _ region).2
        have := fresh _ region
        simp only at *
        omega
  | win pc null =>
      simp only [InitCall.Sound, pc] at sound
      obtain ⟨unset, none⟩ := memSound.unset null
      have nonnull := (memSound.region _ sound.1).1
      refine ⟨⟨memSound.apart, memSound.region, fun null' => absurd null' nonnull, ?_, ?_⟩,
        sound.1, rfl⟩
      · exact fun _ => ⟨c.index, c.env, sound.1, .inl (by rw [unset]), .inl (by rw [unset])⟩
      · simp only [none, List.not_mem_nil, false_implies, implies_true]
  | lose pc nonnull =>
      simp only [InitCall.Sound, pc] at sound
      exact ⟨memSound, sound.1, sound.2, rfl, nonnull⟩
  | storeBuckets pc =>
      simp only [InitCall.Sound, pc] at sound
      obtain ⟨own, base⟩ := sound
      have nonnull : mem.statics.base ≠ 0 := base ▸ (memSound.region _ own).1
      refine ⟨⟨memSound.apart, memSound.region, fun null => absurd null nonnull, fun _ => ?_,
        memSound.kept⟩, own, base, rfl⟩
      exact ⟨c.index, c.env, base ▸ own, .inr rfl, (memSound.published own base).2⟩
  | storeMask pc =>
      simp only [InitCall.Sound, pc] at sound
      obtain ⟨own, base, buckets⟩ := sound
      have nonnull : mem.statics.base ≠ 0 := base ▸ (memSound.region _ own).1
      refine ⟨⟨memSound.apart, memSound.region, fun null => absurd null nonnull, fun _ => ?_,
        memSound.kept⟩, own, ?_, rfl⟩
      · exact ⟨c.index, c.env, base ▸ own, .inr buckets, .inr rfl⟩
      · dsimp only
        rw [base, buckets]
  | freePages pc =>
      simp only [InitCall.Sound, pc] at sound
      obtain ⟨_, unpublished, rfl, nonnull⟩ := sound
      exact ⟨memSound.free nonnull unpublished, rfl, nonnull⟩
  | spin pc =>
      simp only [InitCall.Sound, pc] at sound
      exact ⟨memSound, sound⟩
  | seeBuckets pc count =>
      simp only [InitCall.Sound, pc] at sound
      exact ⟨memSound, sound.1, sound.2, rfl, count⟩
  | awaitMask pc =>
      simp only [InitCall.Sound, InitCall.relyOn, pc, Option.mem_some_iff, forall_eq'] at sound stored
      obtain ⟨rfl, nonnull, rfl, count⟩ := sound
      exact ⟨memSound, rfl, nonnull, count, stored⟩

/-! ## Winners, losers and failures -/

/-- The compare-exchange of this call has published its pages. -/
def InitCall.Won (c : InitCall) : Prop :=
  match c.pc with
  | .storeBuckets | .storeMask | .returned (.won _) => True
  | _ => False

/-- This call has given its pages back. -/
def InitCall.gaveBack (c : InitCall) : Bool :=
  match c.pc with
  | .awaitBuckets _ | .awaitMask _ _ | .returned (.lost _) => true
  | _ => false

/-- This call can no longer fail. -/
def InitCall.Served (c : InitCall) : Prop :=
  match c.pc with
  | .loadBase | .allocPages | .returned .failed => False
  | _ => True

theorem InitCall.Trans.index (trans : InitCall.Trans mem c mem' c') : c'.index = c.index := by
  cases trans <;> rfl

theorem InitCall.Trans.won (trans : InitCall.Trans mem c mem' c') (won : c.Won) :
    c'.Won ∧ c'.pages = c.pages := by
  cases trans with
  | storeBuckets pc | storeMask pc => exact ⟨trivial, rfl⟩
  | _ => simp only [InitCall.Won, *] at won

/-- The base changes by a winning compare-exchange only. -/
theorem InitCall.Trans.base_cases (trans : InitCall.Trans mem c mem' c') :
    mem'.statics.base = mem.statics.base ∨
      (mem.statics.base = 0 ∧ mem'.statics.base = c'.pages ∧ c'.Won) := by
  cases trans with
  | win pc null => exact .inr ⟨null, rfl, trivial⟩
  | _ => exact .inl rfl

theorem InitCall.Trans.served (trans : InitCall.Trans mem c mem' c') (served : c.Served) :
    c'.Served := by
  cases trans with
  | seeNull pc | seeBase pc | allocFails pc | alloc pc =>
      simp only [InitCall.Served, pc] at served
  | _ => exact trivial

/-- A step changes nothing, or the call does not fail. -/
theorem InitCall.Trans.unchanged_or_served (trans : InitCall.Trans mem c mem' c') :
    mem' = mem ∨ c'.Served := by
  cases trans with
  | seeNull pc | allocFails pc => exact .inl rfl
  | _ => exact .inr trivial

/-- The pages a call has given back. -/
def InitCall.returns (c : InitCall) : Multiset (Nat × Pages) := if c.gaveBack then {c.own} else 0

theorem InitCall.Trans.returns (trans : InitCall.Trans mem c mem' c') :
    (mem'.freed : Multiset (Nat × Pages)) + c.returns = mem.freed + c'.returns := by
  cases trans with
  | freePages pc =>
      simp only [InitCall.returns, InitCall.gaveBack, pc, Bool.false_eq_true, if_false, if_true,
        add_zero]
      exact (Multiset.coe_add _ _).symm
  | _ => simp only [InitCall.returns, InitCall.gaveBack, InitCall.own, InitCall.bytes,
      InitCall.buckets, Bool.false_eq_true, if_false, if_true, *]

/-! ## Runs -/

section Runs

variable {ok : InitState → Move (Option (List Char)) Nat → Prop}
  {moves : List (Move (Option (List Char)) Nat)} {s : InitState}

theorem initProgram_start {i : Nat} {env : Option (List Char)}
    (started : initProgram.start mem i env = some (mem', c)) :
    mem' = mem ∧ c = InitCall.init i env := by
  cases started
  exact ⟨rfl, rfl⟩

theorem initProgram_act {i answer : Nat}
    (acted : initProgram.act mem i c answer = some (mem', c')) : InitCall.Trans mem c mem' c' :=
  InitCall.trans_of_step acted

/-- Calls are numbered by their place in the pool. -/
def InitState.Numbered (s : InitState) : Prop := ∀ (i : Nat) (c : InitCall), s.procs[i]? = some c → c.index = i

theorem InitState.Numbered.step {s s' : InitState} {m : Move (Option (List Char)) Nat}
    (numbered : s.Numbered) (stepped : initProgram.step s m = some s') : s'.Numbered := by
  intro i c after
  rcases Program.step_procs stepped after with
    old | ⟨rfl, x, _, started⟩ | ⟨a, c₀, _, atIndex, acted⟩
  · exact numbered i c old
  · exact (initProgram_start started).2 ▸ rfl
  · exact (initProgram_act acted).index.trans (numbered i c₀ atIndex)

theorem initProgram_undisturbed :
    Undisturbed initProgram loadsStored InitState.Numbered InitMemory.Sound InitCall.Sound where
  start_self := by
    intro s env mem c _ _ memSound _ started
    obtain ⟨rfl, rfl⟩ := initProgram_start started
    exact ⟨memSound, trivial⟩
  start_other := by
    intro s env mem c i d _ _ _ _ started _ sound
    obtain ⟨rfl, rfl⟩ := initProgram_start started
    exact sound
  act_self := by
    intro s i c answer mem c' _ stored memSound atIndex sound acted
    exact (initProgram_act acted).sound memSound sound (stored c atIndex)
  act_other := by
    intro s i c answer mem c' j d numbered _ memSound atIndex sound acted other at_j soundOther
    refine InitCall.Sound.mono memSound ((initProgram_act acted).leaves memSound sound ?_) soundOther
    rw [numbered i c atIndex, numbered j d at_j]
    exact other

/-- **The statics and every call are sound in every state reached.** -/
theorem initSound_of_exec (run : initProgram.Exec loadsStored InitState.initial moves s) :
    s.shared.Sound ∧ Everywhere InitCall.Sound s :=
  Exec.interference (fun _ _ _ numbered _ stepped => numbered.step stepped)
    initProgram_undisturbed run (fun i c atIndex => by cases atIndex)
    ⟨InitMemory.Sound.initial, fun i c atIndex => by cases atIndex⟩

/-- A published base was published by one of the calls. -/
theorem winner_of_exec (run : initProgram.Exec ok InitState.initial moves s)
    (set : s.shared.statics.base ≠ 0) :
    ∃ w ∈ s.procs, w.Won ∧ w.pages = s.shared.statics.base := by
  refine Exec.invariant (fun s => s.shared.statics.base ≠ 0 →
    ∃ w ∈ s.procs, w.Won ∧ w.pages = s.shared.statics.base) ?_ run (fun set => absurd rfl set) set
  intro s m s' winner _ stepped set'
  have stays : s'.shared.statics.base = s.shared.statics.base →
      ∃ w ∈ s'.procs, w.Won ∧ w.pages = s'.shared.statics.base := by
    intro same
    obtain ⟨w, inProcs, won, base⟩ := winner (same ▸ set')
    obtain ⟨i, atIndex⟩ := mem_procs_iff.mp inProcs
    rcases Program.step_getElem? stepped atIndex with ⟨kept, _⟩ | ⟨a, w', _, acted, kept⟩
    · exact ⟨w, mem_procs_iff.mpr ⟨i, kept⟩, won, base.trans same.symm⟩
    · obtain ⟨won', pages⟩ := (initProgram_act acted).won won
      exact ⟨w', mem_procs_iff.mpr ⟨i, kept⟩, won', pages.trans (base.trans same.symm)⟩
  cases m with
  | start env =>
      obtain ⟨mem, c, started, rfl⟩ := Program.step_start stepped
      obtain ⟨rfl, rfl⟩ := initProgram_start started
      exact stays rfl
  | act i answer =>
      obtain ⟨c, mem, c', atIndex, acted, rfl⟩ := Program.step_act stepped
      rcases (initProgram_act acted).base_cases with same | ⟨_, base, won⟩
      · exact stays same
      · exact ⟨c', List.mem_of_getElem? (List.getElem?_set_self
          (List.getElem?_eq_some_iff.mp atIndex).1), won, base.symm⟩

/-- The pages given back are those of the calls that lost. -/
theorem freed_perm (run : initProgram.Exec ok InitState.initial moves s) :
    s.shared.freed.Perm ((s.procs.filter InitCall.gaveBack).map InitCall.own) := by
  have account : (s.shared.freed : Multiset (Nat × Pages)) = (s.procs.map InitCall.returns).sum := by
    refine Exec.account (c := fun mem => (mem.freed : Multiset (Nat × Pages))) ?_ ?_ run rfl
    · intro s env mem' c _ started
      obtain ⟨rfl, rfl⟩ := initProgram_start started
      exact (add_zero _).symm
    · exact fun acted => (initProgram_act acted).returns
  have single : ∀ l : List InitCall, (l.map fun c => ({c.own} : Multiset (Nat × Pages))).sum =
      (l.map InitCall.own : List (Nat × Pages)) := by
    intro l
    induction l with
    | nil => rfl
    | cons c l ih => rw [List.map_cons, List.sum_cons, ih]; rfl
  unfold InitCall.returns at account
  rw [sum_map_ite, single] at account
  simpa using Multiset.coe_eq_coe.mp account

/-- A step of a call that comes to fail changes nothing. -/
theorem shared_eq_of_fails {after : List (Move (Option (List Char)) Nat)}
    {s₁ s₂ : InitState} {i answer : Nat} {c : InitCall}
    (stepped : initProgram.step s₁ (.act i answer) = some s₂)
    (rest : initProgram.Exec ok s₂ after s) (atEnd : s.procs[i]? = some c)
    (failed : c.pc = .returned .failed) : s₂.shared = s₁.shared := by
  obtain ⟨c₁, mem, c₂, atIndex, acted, rfl⟩ := Program.step_act stepped
  rcases (initProgram_act acted).unchanged_or_served with same | served
  · exact same
  · have at_i : (s₁.procs.set i c₂)[i]? = some c₂ :=
      List.getElem?_set_self (List.getElem?_eq_some_iff.mp atIndex).1
    have served' : c.Served := Exec.own (I := InitCall.Served)
      (fun acted => (initProgram_act acted).served) rest at_i atEnd served
    simp only [InitCall.Served, failed] at served'

/-- All calls agree on one table. -/
structure InitState.Agrees (s : InitState) : Prop where
  /-- At most one compare-exchange on `TABLE_BASE` succeeds. -/
  one_winner : ∀ v ∈ s.procs, ∀ w ∈ s.procs, v.Won → w.Won → v = w
  /-- The winner's bucket count is a power of two in `[64, 2 ^ 20]`, that many
  buckets are mapped for it, and they are never given back. -/
  table : ∀ w ∈ s.procs, w.Won → (∃ k, 6 ≤ k ∧ k ≤ 20 ∧ w.buckets = 2 ^ k) ∧ w.pages ≠ 0 ∧
    (w.index, ⟨w.pages, w.buckets * bucketSize⟩) ∈ s.shared.live ∧
    ∀ r ∈ s.shared.freed, r.2.ptr ≠ w.pages
  /-- Every result is the table of the winner. -/
  result : ∀ c ∈ s.procs, ∀ outcome r, c.pc = .returned outcome → outcome.result = some r →
    ∃ w ∈ s.procs, w.Won ∧ r = ⟨w.pages, w.buckets, w.buckets - 1⟩
  /-- The pages given back are the losers' own, each once. -/
  freed : s.shared.freed.Perm ((s.procs.filter InitCall.gaveBack).map InitCall.own)

theorem InitCall.Sound.won (sound : c.Sound mem) (won : c.Won) :
    c.own ∈ mem.live ∧ mem.statics.base = c.pages := by
  unfold InitCall.Won at won
  split at won
  · simp_all only [InitCall.Sound, and_self]
  · simp_all only [InitCall.Sound, and_self]
  · simp only [InitCall.Sound, *] at sound
    exact ⟨sound.1, by rw [← sound.2.1, sound.2.2]⟩
  · exact won.elim

/-- The result of a call that did not win is what the statics hold. -/
theorem InitCall.Sound.result (memSound : mem.Sound) (sound : c.Sound mem) {outcome : InitOutcome}
    {r : Statics} (pc : c.pc = .returned outcome) (result : outcome.result = some r) :
    r = mem.statics ∧ mem.statics.Stored := by
  simp only [InitCall.Sound, pc] at sound
  cases outcome with
  | found r' | lost r' =>
      cases result
      exact sound
  | won r' =>
      cases result
      obtain ⟨own, same, table⟩ := sound
      have := c.buckets_ge
      refine ⟨same, ?_⟩
      rw [← same, table]
      exact ⟨(memSound.region _ own).1, by dsimp only; omega, by dsimp only; omega⟩
  | failed => cases result

theorem agrees_of_exec (run : initProgram.Exec loadsStored InitState.initial moves s) :
    s.Agrees := by
  obtain ⟨memSound, procs⟩ := initSound_of_exec run
  have soundOf : ∀ c ∈ s.procs, c.Sound s.shared := by
    intro c inProcs
    obtain ⟨i, atIndex⟩ := mem_procs_iff.mp inProcs
    exact procs i c atIndex
  have numbered : s.Numbered := Exec.invariant InitState.Numbered
    (fun _ _ _ numbered _ stepped => numbered.step stepped) run (fun i c atIndex => by cases atIndex)
  refine ⟨?_, ?_, ?_, freed_perm run⟩
  · intro v inProcs w inProcs' vWon wWon
    obtain ⟨vOwn, vBase⟩ := (soundOf v inProcs).won vWon
    obtain ⟨wOwn, wBase⟩ := (soundOf w inProcs').won wWon
    have entry := memSound.apart _ vOwn _ wOwn (vBase.symm.trans wBase)
    obtain ⟨i, at_i⟩ := mem_procs_iff.mp inProcs
    obtain ⟨j, at_j⟩ := mem_procs_iff.mp inProcs'
    have same : v.index = w.index := congrArg Prod.fst entry
    rw [numbered i v at_i, numbered j w at_j] at same
    subst same
    exact Option.some.inj (at_i.symm.trans at_j)
  · intro w inProcs won
    obtain ⟨own, base⟩ := (soundOf w inProcs).won won
    refine ⟨configuredBucketCount_cases w.env, (memSound.region _ own).1, own, fun r freed => ?_⟩
    rw [← base]
    exact memSound.kept r freed
  · intro c inProcs outcome r pc result
    obtain ⟨rfl, base, buckets, mask⟩ := (soundOf c inProcs).result memSound pc result
    obtain ⟨w, inProcs', won, pages⟩ := winner_of_exec run base
    obtain ⟨own, _⟩ := (soundOf w inProcs').won won
    obtain ⟨count, masked⟩ := memSound.published own pages.symm
    refine ⟨w, inProcs', won, ?_⟩
    calc s.shared.statics
        = ⟨s.shared.statics.base, s.shared.statics.buckets, s.shared.statics.mask⟩ := rfl
      _ = ⟨w.pages, w.buckets, w.buckets - 1⟩ := by
        rw [pages, count.resolve_left buckets, masked.resolve_left mask]

/-- What the calls agree on is a table as `record` and `call_sites_report` take it. -/
theorem InitState.Agrees.initialised (agrees : s.Agrees) {outcome : InitOutcome} {r : Statics}
    (inProcs : c ∈ s.procs) (pc : c.pc = .returned outcome) (result : outcome.result = some r) :
    ∃ w ∈ s.procs, w.Won ∧ r.Initialised w.env := by
  obtain ⟨w, inProcs', won, rfl⟩ := agrees.result c inProcs outcome r pc result
  exact ⟨w, inProcs', won, (agrees.table w inProcs' won).2.1, rfl, rfl⟩

/-- Once the statics are stored, `ensure_init` is three loads that return them. -/
theorem ensureInit_of_stored (stored : mem.statics.Stored) (i answer : Nat)
    (env : Option (List Char)) :
    ((InitCall.init i env).step mem answer).bind (fun r => (r.2.step r.1 answer).bind
      fun r => r.2.step r.1 answer) =
    some (mem, { InitCall.init i env with pc := .returned (.found mem.statics) }) := by
  simp only [InitCall.init, InitCall.step, if_neg stored.1, Option.bind_some]

/-- **Initialisation agrees where no caller loads a static before it is stored.**
Every result is the winner's table, losers give back exactly their own pages, and
a call whose pages cannot be mapped returns `None` and has changed nothing. -/
theorem ensureInit_agrees (run : initProgram.Exec loadsStored InitState.initial moves s) :
    s.Agrees ∧
    (∀ i c s', s.procs[i]? = some c → c.pc = .allocPages →
      initProgram.step s (.act i 0) = some s' →
      s'.procs[i]? = some { c with pc := .returned .failed } ∧ s'.shared = s.shared) ∧
    (∀ before after s₁ s₂ i answer c, moves = before ++ .act i answer :: after →
      initProgram.Exec loadsStored InitState.initial before s₁ →
      initProgram.step s₁ (.act i answer) = some s₂ →
      initProgram.Exec loadsStored s₂ after s → s.procs[i]? = some c →
      c.pc = .returned .failed → s₂.shared = s₁.shared) := by
  refine ⟨agrees_of_exec run, ?_, ?_⟩
  · intro i c s' atIndex pc stepped
    have acted : initProgram.act s.shared i c 0 =
        some (s.shared, { c with pc := .returned .failed }) := by
      simp only [initProgram, InitCall.step, pc, if_true]
    rw [step_act_eq atIndex acted] at stepped
    cases stepped
    exact ⟨List.getElem?_set_self (List.getElem?_eq_some_iff.mp atIndex).1, rfl⟩
  · intro before after s₁ s₂ i answer c _ _ stepped rest atEnd failed
    exact shared_eq_of_fails stepped rest atEnd failed

end Runs

/-! Four calls: the first two race for the base, the third comes when all is
published, and no pages are left for the fourth. -/

def initRaceMoves : List (Move (Option (List Char)) Nat) :=
  [.start (some ['6', '4']), .start none, .start none, .act 0 0, .act 1 0, .act 2 0,
    .act 1 0x200000, .act 0 0x100000, .act 2 0, .act 0 0, .act 1 0, .act 1 0, .act 1 0, .act 0 0,
    .act 0 0, .act 1 0, .act 1 0, .start none, .act 3 0, .act 3 0, .act 3 0]

def initRaceEnd : InitState :=
  (initProgram.run loadsStored InitState.initial initRaceMoves).get (by decide)

theorem ensureInit_agrees_race :
    (∃ w ∈ initRaceEnd.procs, w.Won ∧ (⟨0x100000, 64, 63⟩ : Statics) =
      ⟨w.pages, w.buckets, w.buckets - 1⟩) ∧
    initRaceEnd.shared.freed.Perm [(1, ⟨0x200000, 4096 * 96⟩)] := by
  have run : initProgram.Exec loadsStored InitState.initial initRaceMoves initRaceEnd :=
    Exec.of_run (Option.some_get (by decide)).symm
  have agrees := (ensureInit_agrees run).1
  exact ⟨agrees.result ⟨1, none, 0x200000, .returned (.lost ⟨0x100000, 64, 63⟩)⟩ (by decide) _ _
    rfl rfl, agrees.freed.trans (by decide)⟩

/-- Between the winner's compare-exchange and its first store. -/
def earlyMoves : List (Move (Option (List Char)) Nat) :=
  [.start none, .start none, .act 0 0, .act 0 0x100000, .act 0 0, .act 1 0, .act 1 0, .act 1 0]

def earlyEnd : InitState := (initProgram.run anyMove InitState.initial earlyMoves).get (by decide)

/-- On the fast path a caller returns zero buckets and a zero mask for a table of
4096. -/
theorem ensureInit_disagrees :
    ¬ ∀ moves (s : InitState), initProgram.Exec anyMove InitState.initial moves s → s.Agrees := by
  intro always
  have run : initProgram.Exec anyMove InitState.initial earlyMoves earlyEnd :=
    Exec.of_run (Option.some_get (by decide)).symm
  obtain ⟨w, inProcs, _, same⟩ := (always _ _ run).result
    ⟨1, none, 0, .returned (.found ⟨0x100000, 0, 0⟩)⟩ (by decide) _ _ rfl rfl
  have count : 0 = w.buckets := congrArg Statics.buckets same
  have := w.buckets_ge
  omega

end ModAlloc
