import ModAlloc.Backtrace.Chain
import ModAlloc.Lib.Interleaving

/-!
# Capturing an event

`record_event` up to the call of `record`, on any number of threads: the frame
pointer, the bounds of the stack that `current_stack_bounds` caches for each thread,
and the walk. What the platform answers when it is asked for a stack is any words at
all, and any of the accesses to the thread-local storage can find it gone.

Each word that a walk reads is in a stack that the platform has described for its
thread, and as long as the platform says the same each time, the cache changes
nothing (`capture_own_stack`).
-/

namespace ModAlloc

open Interleaving Interleaving.Program Follow

/-! ## What the platforms say -/

/-- `a.checked_add(b)` -/
def checkedAdd (a b : U64) : Option U64 :=
  if a.toNat + b.toNat < 2 ^ 64 then some (a + b) else none

/-- `a.checked_sub(b)` -/
def checkedSub (a b : U64) : Option U64 := if b ≤ a then some (a - b) else none

/-- What a platform answers when it is asked for the stack of the calling thread. -/
inductive OsAnswer where
  /-- `GetCurrentThreadStackLimits` -/
  | windows (low high : U64)
  /-- the codes of `pthread_getattr_np` and `pthread_attr_getstack`, and what the latter
  writes -/
  | linux (getattr getstack : Int) (stackaddr stacksize : U64)
  /-- `pthread_get_stackaddr_np` and `pthread_get_stacksize_np`, also on the BSDs -/
  | darwin (addrTop size : U64)
  /-- any other target -/
  | other
deriving DecidableEq

/-- `query_os`, with the answer of the platform it is compiled for. -/
def queryOs : OsAnswer → Option StackBounds
  | .windows low high => if low = 0 ∨ high = 0 ∨ high ≤ low then none else some ⟨low, high⟩
  | .linux getattr getstack stackaddr stacksize =>
      if getattr ≠ 0 then none
      else if getstack ≠ 0 then none
      else (checkedAdd stackaddr stacksize).bind fun high =>
        if stackaddr = 0 ∨ stacksize = 0 then none else some ⟨stackaddr, high⟩
  | .darwin addrTop size =>
      if addrTop = 0 ∨ size = 0 then none
      else (checkedSub addrTop size).map fun low => ⟨low, addrTop⟩
  | .other => none

/-- The addresses that an answer says are the stack of the thread. -/
def OsAnswer.Stack : OsAnswer → Nat → Prop
  | .windows low high, a => low.toNat ≤ a ∧ a < high.toNat
  | .linux _ _ stackaddr stacksize, a =>
      stackaddr.toNat ≤ a ∧ a < stackaddr.toNat + stacksize.toNat
  | .darwin addrTop size, a => addrTop.toNat ≤ a + size.toNat ∧ a < addrTop.toNat
  | .other, _ => False

theorem toNat_checkedAdd {a b c : U64} (sum : checkedAdd a b = some c) :
    c.toNat = a.toNat + b.toNat := by
  unfold checkedAdd at sum
  split at sum
  case isTrue small =>
      cases sum
      rw [BitVec.toNat_add, Nat.mod_eq_of_lt small]
  case isFalse => cases sum

theorem toNat_checkedSub {a b c : U64} (difference : checkedSub a b = some c) :
    c.toNat + b.toNat = a.toNat := by
  unfold checkedSub at difference
  split at difference
  case isTrue small =>
      cases difference
      bv_omega
  case isFalse => cases difference

/-- **The bounds are those of the stack**, which is not empty: no platform's arithmetic
on them wraps. -/
theorem queryOs_stack {answer : OsAnswer} {bounds : StackBounds}
    (given : queryOs answer = some bounds) :
    bounds.low < bounds.high ∧
      ∀ a, answer.Stack a ↔ bounds.low.toNat ≤ a ∧ a < bounds.high.toNat := by
  cases answer with
  | windows low high =>
      rw [queryOs] at given
      split at given
      case isTrue => cases given
      case isFalse proper =>
          cases given
          exact ⟨by bv_omega, fun _ => Iff.rfl⟩
  | linux getattr getstack stackaddr stacksize =>
      rw [queryOs] at given
      split at given
      case isTrue => cases given
      split at given
      case isTrue => cases given
      obtain ⟨high, sum, given⟩ := Option.bind_eq_some_iff.mp given
      split at given
      case isTrue => cases given
      case isFalse proper =>
          cases given
          have top := toNat_checkedAdd sum
          refine ⟨by bv_omega, fun a => ?_⟩
          rw [OsAnswer.Stack, top]
  | darwin addrTop size =>
      rw [queryOs] at given
      split at given
      case isTrue => cases given
      case isFalse proper =>
          obtain ⟨low, difference, rfl⟩ := Option.map_eq_some_iff.mp given
          have bottom := toNat_checkedSub difference
          refine ⟨by bv_omega, fun a => ?_⟩
          rw [OsAnswer.Stack, ← bottom]
          dsimp only
          omega
  | other => cases given

/-! ## The calls -/

/-- What the environment contributes to a step: whether the storage of the thread is
there, and what the platform answers. -/
structure CaptureAnswer where
  storage : Bool
  os : OsAnswer

/-- The cells `CACHED` of the threads, and all that the platform has answered. -/
structure CaptureWorld where
  cached : Nat → Option StackBounds
  answers : List (Nat × OsAnswer)

/-- The next step of `record_event`. -/
inductive CapturePc where
  /-- `current_fp` -/
  | currentFp
  /-- `CACHED.try_with(|c| c.get())` -/
  | getCached
  /-- `query_os`, and whether the storage was there -/
  | queryOs (storage : Bool)
  /-- `CACHED.try_with(|c| c.set(Some(b)))` -/
  | setCached (fresh : StackBounds)
  | walk (bounds : StackBounds)
  | returned
deriving DecidableEq

/-- A `record_event` in progress: its thread, its frame pointer, the words of its stack,
the addresses read there, and the frames for `record`. -/
structure CaptureCall where
  thread : Nat
  fp : U64
  stack : U64 → U64
  reads : List U64
  out : Option Frames
  pc : CapturePc

namespace CaptureCall

def init (thread : Nat) (fp : U64) (stack : U64 → U64) : CaptureCall :=
  ⟨thread, fp, stack, [], none, .currentFp⟩

def step (world : CaptureWorld) (c : CaptureCall) (answer : CaptureAnswer) :
    Option (CaptureWorld × CaptureCall) :=
  match c.pc with
  | .currentFp => some (world, { c with pc := if c.fp = 0 then .returned else .getCached })
  | .getCached =>
      if answer.storage then
        match world.cached c.thread with
        | some bounds => some (world, { c with pc := .walk bounds })
        | none => some (world, { c with pc := .queryOs true })
      else some (world, { c with pc := .queryOs false })
  | .queryOs storage =>
      let asked := { world with answers := world.answers ++ [(c.thread, answer.os)] }
      match ModAlloc.queryOs answer.os with
      | some fresh => some (asked, { c with pc := if storage then .setCached fresh else .walk fresh })
      | none => some (asked, { c with pc := .returned })
  | .setCached fresh =>
      let set := if answer.storage then Function.update world.cached c.thread (some fresh)
        else world.cached
      some ({ world with cached := set }, { c with pc := .walk fresh })
  | .walk bounds =>
      let (frames, reads) := walkM (loggedRead c.stack) c.fp bounds []
      let out := if frames.count.val = 0 then none else some frames
      some (world, { c with reads, out, pc := .returned })
  | .returned => none

end CaptureCall

/-- Any number of `record_event` calls, each on a thread, with a frame pointer and the
words of the stack. -/
def captureProgram : Program CaptureWorld CaptureCall (Nat × U64 × (U64 → U64)) CaptureAnswer where
  start world _ arg := some (world, .init arg.1 arg.2.1 arg.2.2)
  act world _ c answer := c.step world answer

abbrev CaptureState := Pool CaptureWorld CaptureCall

def CaptureState.initial : CaptureState := ⟨⟨fun _ => none, []⟩, []⟩

/-! ## What is cached -/

variable {world world' : CaptureWorld} {c c' : CaptureCall} {answer : CaptureAnswer}

/-- The platform has given these bounds for the thread. -/
def CaptureWorld.Gave (world : CaptureWorld) (thread : Nat) (bounds : StackBounds) : Prop :=
  ∃ os, (thread, os) ∈ world.answers ∧ queryOs os = some bounds

/-- What is cached has been given. -/
def CaptureWorld.Valid (world : CaptureWorld) : Prop :=
  ∀ thread bounds, world.cached thread = some bounds → world.Gave thread bounds

theorem CaptureWorld.Gave.mono {thread : Nat} {bounds : StackBounds} (gave : world.Gave thread bounds)
    (more : world.answers ⊆ world'.answers) : world'.Gave thread bounds := by
  obtain ⟨os, answered, given⟩ := gave
  exact ⟨os, more answered, given⟩

/-- The platform has failed to give bounds for the thread. -/
def CaptureWorld.Refused (world : CaptureWorld) (thread : Nat) : Prop :=
  ∃ os, (thread, os) ∈ world.answers ∧ queryOs os = none

theorem CaptureWorld.Refused.mono {thread : Nat} (refused : world.Refused thread)
    (more : world.answers ⊆ world'.answers) : world'.Refused thread := by
  obtain ⟨os, answered, failed⟩ := refused
  exact ⟨os, more answered, failed⟩

/-! ## One call -/

namespace CaptureCall

/-- How a call has ended. -/
inductive Outcome (world : CaptureWorld) (c : CaptureCall) : Prop where
  | noFramePointer : c.fp = 0 → c.reads = [] → c.out = none → c.Outcome world
  | noBounds : world.Refused c.thread → c.reads = [] → c.out = none → c.Outcome world
  | walked (bounds : StackBounds) (frames : List U64) : c.fp ≠ 0 → world.Gave c.thread bounds →
      c.out = captureEvent c.fp (some bounds) c.stack → c.reads = frames.flatMap frameWords →
      frames.length ≤ 8 → frames.Pairwise (· < ·) → (∀ fp ∈ frames, bounds.holds fp) →
      c.Outcome world

/-- What a call knows, where it is. -/
def Course (world : CaptureWorld) (c : CaptureCall) : Prop :=
  match c.pc with
  | .currentFp => True
  | .getCached | .queryOs _ => c.fp ≠ 0
  | .setCached bounds | .walk bounds => c.fp ≠ 0 ∧ world.Gave c.thread bounds
  | .returned => c.Outcome world

/-- Before it returns, a call has read nothing and has nothing to record. -/
structure Sound (world : CaptureWorld) (c : CaptureCall) : Prop where
  blank : c.pc ≠ .returned → c.reads = [] ∧ c.out = none
  course : c.Course world

theorem Outcome.mono (outcome : c.Outcome world) (more : world.answers ⊆ world'.answers) :
    c.Outcome world' := by
  cases outcome with
  | noFramePointer zero unread nothing => exact .noFramePointer zero unread nothing
  | noBounds refused unread nothing => exact .noBounds (refused.mono more) unread nothing
  | walked bounds frames nonzero gave out reads few up within =>
      exact .walked bounds frames nonzero (gave.mono more) out reads few up within

theorem Sound.mono (sound : c.Sound world) (more : world.answers ⊆ world'.answers) :
    c.Sound world' := by
  refine ⟨sound.blank, ?_⟩
  have course := sound.course
  unfold Course at course ⊢
  cases pc : c.pc with
  | currentFp => trivial
  | getCached | queryOs =>
      simp only [pc] at course
      exact course
  | setCached | walk =>
      simp only [pc] at course
      exact ⟨course.1, course.2.mono more⟩
  | returned =>
      simp only [pc] at course
      exact course.mono more

/-- The walk ends the call: it has read the frames that it found inside the bounds. -/
theorem outcome_of_walk {bounds : StackBounds} (nonzero : c.fp ≠ 0)
    (gave : world.Gave c.thread bounds) (walked : c'.fp = c.fp ∧ c'.thread = c.thread ∧
      c'.stack = c.stack) {frames : Frames}
    (read : walkM (loggedRead c.stack) c.fp bounds [] = (frames, c'.reads))
    (out : c'.out = if frames.count.val = 0 then none else some frames) : c'.Outcome world := by
  obtain ⟨fp, thread, stack⟩ := walked
  obtain ⟨path, logged, few, isPath⟩ :=
    @walkLoop_logged c.stack bounds maxFrames c.fp Frames.empty []
  obtain ⟨rfl, reads⟩ := Prod.mk.inj (read.symm.trans logged)
  refine .walked bounds path (fp ▸ nonzero) (thread ▸ gave) ?_ reads few (pairwise_lt_of_path isPath)
    isPath.valid
  rw [out, fp, stack, captureEvent, if_neg nonzero]
  rfl

/-- A call that goes on has still read nothing. -/
theorem Sound.goOn {pc : CapturePc} (sound : c.Sound world) (running : c.pc ≠ .returned)
    (course : Course world' { c with pc }) : Sound world' { c with pc } :=
  ⟨fun _ => sound.blank running, course⟩

/-- **A step keeps the cache valid and what its call knows true**, and takes no answer
back. -/
theorem sound_step (valid : world.Valid) (sound : c.Sound world)
    (stepped : c.step world answer = some (world', c')) :
    world.answers ⊆ world'.answers ∧ world'.Valid ∧ c'.Sound world' := by
  have course := sound.course
  unfold Course at course
  have running : c.pc ≠ .returned := by
    intro returned
    simp only [step, returned, reduceCtorEq] at stepped
  obtain ⟨unread, nothing⟩ := sound.blank running
  unfold step at stepped
  cases pc : c.pc with
  | currentFp =>
      simp only [pc, Option.some.injEq, Prod.mk.injEq] at stepped
      obtain ⟨rfl, rfl⟩ := stepped
      refine ⟨List.Subset.refl _, valid, sound.goOn running ?_⟩
      by_cases zero : c.fp = 0
      · simp only [Course, if_pos zero]
        exact .noFramePointer zero unread nothing
      · simp only [Course, if_neg zero]
        exact zero
  | getCached =>
      simp only [pc] at stepped course
      cases storage : answer.storage with
      | false =>
          simp only [storage, Bool.false_eq_true, if_false] at stepped
          cases stepped
          exact ⟨List.Subset.refl _, valid, sound.goOn running course⟩
      | true =>
          simp only [storage, if_true] at stepped
          cases cached : world.cached c.thread with
          | none =>
              simp only [cached] at stepped
              cases stepped
              exact ⟨List.Subset.refl _, valid, sound.goOn running course⟩
          | some bounds =>
              simp only [cached] at stepped
              cases stepped
              exact ⟨List.Subset.refl _, valid, sound.goOn running ⟨course, valid _ _ cached⟩⟩
  | queryOs storage =>
      simp only [pc] at stepped course
      have more : world.answers ⊆ world.answers ++ [(c.thread, answer.os)] :=
        List.subset_append_left _ _
      have asked : (c.thread, answer.os) ∈ world.answers ++ [(c.thread, answer.os)] :=
        List.mem_append_right _ (List.mem_singleton_self _)
      cases given : ModAlloc.queryOs answer.os with
      | none =>
          simp only [given] at stepped
          cases stepped
          exact ⟨more, fun t b cached => (valid t b cached).mono more,
            sound.goOn running (.noBounds ⟨answer.os, asked, given⟩ unread nothing)⟩
      | some fresh =>
          simp only [given] at stepped
          cases stepped
          refine ⟨more, fun t b cached => (valid t b cached).mono more, sound.goOn running ?_⟩
          cases storage with
          | false => exact ⟨course, answer.os, asked, given⟩
          | true => exact ⟨course, answer.os, asked, given⟩
  | setCached fresh =>
      simp only [pc] at stepped course
      obtain ⟨nonzero, gave⟩ := course
      cases stepped
      refine ⟨List.Subset.refl _, ?_, sound.goOn running ⟨nonzero, gave⟩⟩
      intro t b cached
      cases storage : answer.storage with
      | false =>
          simp only [storage, Bool.false_eq_true, if_false] at cached
          exact valid t b cached
      | true =>
          simp only [storage, if_true] at cached
          rcases eq_or_ne t c.thread with rfl | other
          · rw [Function.update_self, Option.some.injEq] at cached
            exact cached ▸ gave
          · rw [Function.update_of_ne other] at cached
            exact valid t b cached
  | walk bounds =>
      simp only [pc] at stepped course
      cases stepped
      exact ⟨List.Subset.refl _, valid, fun running => absurd rfl running,
        outcome_of_walk course.1 course.2 ⟨rfl, rfl, rfl⟩ rfl rfl⟩
  | returned => exact absurd pc running

end CaptureCall

/-! ## Every state -/

variable {moves : List (Move (Nat × U64 × (U64 → U64)) CaptureAnswer)} {s : CaptureState}

theorem captureSound_of_exec (run : captureProgram.Exec anyMove CaptureState.initial moves s) :
    s.shared.Valid ∧ Everywhere CaptureCall.Sound s := by
  have undisturbed : Undisturbed captureProgram anyMove (fun _ => True) CaptureWorld.Valid
      CaptureCall.Sound :=
    { start_self := by
        intro s arg world c _ _ valid _ started
        cases started
        exact ⟨valid, fun _ => ⟨rfl, rfl⟩, trivial⟩
      start_other := by
        intro s arg world c i d _ _ _ _ started _ sound
        cases started
        exact sound
      act_self := by
        intro s i c answer world c' _ _ valid _ sound acted
        exact (CaptureCall.sound_step valid sound acted).2
      act_other := by
        intro s i c answer world c' j d _ _ valid _ sound acted _ _ soundOther
        exact soundOther.mono (CaptureCall.sound_step valid sound acted).1 }
  have empty : CaptureState.initial.shared.Valid := by
    intro t bounds cached
    cases cached
  exact Exec.interference (fun _ _ _ _ _ _ => trivial) undisturbed run trivial
    ⟨empty, fun i c at_i => by cases at_i⟩

/-- A frame inside the bounds is in the stack that they are of, to its last byte. -/
theorem StackBounds.holds.inStack {bounds : StackBounds} {fp a : U64} {os : OsAnswer}
    (holds : bounds.holds fp) (given : queryOs os = some bounds) (isWord : a ∈ frameWords fp) {k : Nat}
    (inWord : k < 8) : os.Stack (a.toNat + k) := by
  obtain ⟨_, _, low, high⟩ := holds
  have below := bounds.high.isLt
  rw [(queryOs_stack given).2]
  simp only [frameWords, List.mem_cons, List.not_mem_nil, or_false] at isWord
  rcases isWord with rfl | rfl
  · omega
  · rw [BitVec.toNat_add, Nat.mod_eq_of_lt (by simp; omega)]
    exact ⟨by simp; omega, by simp; omega⟩

/-- **A capture reads the stack of its own thread.** What a call passes on to `record` is
what the walk finds in bounds that the platform has given for the thread, now or
earlier, and each byte that it reads is in the stack the platform described. Without
such bounds it reads nothing. If the platform says the same of a thread whenever it says
anything, the cache makes no difference. -/
theorem capture_own_stack (run : captureProgram.Exec anyMove CaptureState.initial moves s)
    (inProcs : c ∈ s.procs) (returned : c.pc = .returned) :
    (c.reads = [] ∧ c.out = none ∧ (c.fp = 0 ∨ s.shared.Refused c.thread) ∨
      ∃ os bounds, (c.thread, os) ∈ s.shared.answers ∧ queryOs os = some bounds ∧
        c.out = captureEvent c.fp (some bounds) c.stack ∧
        ∃ frames : List U64, c.reads = frames.flatMap frameWords ∧ frames.length ≤ 8 ∧
          frames.Pairwise (· < ·) ∧ ∀ a ∈ c.reads, ∀ k < 8, os.Stack (a.toNat + k)) ∧
      ∀ stackOf : Nat → OsAnswer,
        (∀ p ∈ s.shared.answers, queryOs p.2 = none ∨ p.2 = stackOf p.1) →
          c.out = captureEvent c.fp (queryOs (stackOf c.thread)) c.stack ∨
            c.out = none ∧ s.shared.Refused c.thread := by
  obtain ⟨i, at_i⟩ := mem_procs_iff.mp inProcs
  have ended := ((captureSound_of_exec run).2 i c at_i).course
  simp only [CaptureCall.Course, returned] at ended
  cases ended with
  | noFramePointer zero unread nothing =>
      refine ⟨.inl ⟨unread, nothing, .inl zero⟩, fun os _ => .inl ?_⟩
      rw [nothing, captureEvent.eq_def, if_pos zero]
  | noBounds refused unread nothing =>
      exact ⟨.inl ⟨unread, nothing, .inr refused⟩, fun _ _ => .inr ⟨nothing, refused⟩⟩
  | walked bounds frames nonzero gave out reads few up within =>
      obtain ⟨os, answered, given⟩ := gave
      refine ⟨.inr ⟨os, bounds, answered, given, out, frames, reads, few, up, ?_⟩, ?_⟩
      · intro a wasRead k inWord
        rw [reads] at wasRead
        obtain ⟨fp, isFrame, isWord⟩ := List.mem_flatMap.mp wasRead
        exact (within fp isFrame).inStack given isWord inWord
      · intro stackOf steady
        rcases steady _ answered with failed | same
        · rw [given] at failed
          cases failed
        · obtain rfl : os = stackOf c.thread := same
          exact .inl (out.trans (given ▸ rfl))

/-! A thread whose first question fails, whose second is answered, and whose third call
finds the answer in the cache, while another thread has lost its storage. -/

def twoFrames (a : U64) : U64 :=
  if a = 0x7000 then 0x7010 else if a = 0x7008 then 0x401000 else if a = 0x7018 then 0x402000 else 0

def linuxStack : OsAnswer := .linux 0 0 0x6000 0x2000

def captureArg (thread : Nat) : Nat × U64 × (U64 → U64) := (thread, 0x7000, twoFrames)

def cachingMoves : List (Move (Nat × U64 × (U64 → U64)) CaptureAnswer) :=
  let refused : CaptureAnswer := ⟨true, .linux 12 0 0 0⟩
  let given : CaptureAnswer := ⟨true, linuxStack⟩
  let gone : CaptureAnswer := ⟨false, linuxStack⟩
  [.start (captureArg 0), .act 0 refused, .act 0 refused, .act 0 refused,
    .start (captureArg 0), .start (captureArg 1), .act 1 given, .act 2 gone, .act 1 given,
    .act 2 gone, .act 1 given, .act 1 given, .act 2 gone, .act 1 given, .act 2 gone,
    .start (captureArg 0), .act 3 refused, .act 3 refused, .act 3 refused]

def cachingEnd : CaptureState :=
  (captureProgram.run anyMove CaptureState.initial cachingMoves).get (by decide +kernel)

theorem cachingRun : captureProgram.Exec anyMove CaptureState.initial cachingMoves cachingEnd :=
  Exec.of_run (Option.some_get _).symm

/-- The call that finds the bounds in the cache. -/
def cachedCapture : CaptureCall := cachingEnd.procs.get ⟨3, by decide +kernel⟩

theorem cachedCapture_mem : cachedCapture ∈ cachingEnd.procs := List.get_mem ..

theorem capture_own_stack_cached :
    cachedCapture.reads = [0x7000, 0x7008, 0x7010, 0x7018] ∧ cachedCapture.out ≠ none ∧
      (cachedCapture.out = captureEvent cachedCapture.fp (queryOs linuxStack) cachedCapture.stack ∨
        cachedCapture.out = none ∧ cachingEnd.shared.Refused cachedCapture.thread) := by
  have returned : cachedCapture.pc = .returned := by decide +kernel
  have steady : ∀ p ∈ cachingEnd.shared.answers, queryOs p.2 = none ∨ p.2 = linuxStack := by
    decide +kernel
  have reads : cachedCapture.reads = [0x7000, 0x7008, 0x7010, 0x7018] := by decide +kernel
  have captured : cachedCapture.out ≠ none := by decide +kernel
  exact ⟨reads, captured,
    (capture_own_stack cachingRun cachedCapture_mem returned).2 (fun _ => linuxStack) steady⟩

end ModAlloc
