import ModAlloc.Backtrace.Hash

/-!
# The frame-pointer walk

`walk` follows the chain of saved frame pointers through the words of a stack,
each step behind the checks of the source; `captureEvent` is `record_event` up to
the call of `record`. The frame pointer, the stack bounds and the words of the
stack are whatever the platform says they are.
-/

namespace ModAlloc

/-- Inclusive bounds of the current thread's stack. -/
structure StackBounds where
  low : U64
  high : U64
deriving DecidableEq, Repr

/-- `out.frames[i] = return_addr; out.count += 1`, where `i` is `out.count`. -/
def Frames.push (out : Frames) (returnAddr : U64) : Frames :=
  if room : out.count.val < 8 then
    ⟨out.frames.set out.count.val returnAddr room, ⟨out.count.val + 1, Nat.succ_lt_succ room⟩⟩
  else out

/-- `fp` is aligned and 16 bytes can be read there. -/
def StackBounds.readable (bounds : StackBounds) (fp : U64) : Prop :=
  fp &&& 0xF = 0 ∧ bounds.low ≤ fp ∧ fp.toNat + 16 < 2 ^ 64 ∧ fp.toNat + 16 ≤ bounds.high.toNat

instance (bounds : StackBounds) (fp : U64) : Decidable (bounds.readable fp) :=
  inferInstanceAs (Decidable (_ ∧ _ ∧ _ ∧ _))

/-- The loop of the walk, with the iterations left. -/
def walkLoop (stack : U64 → U64) (bounds : StackBounds) : Nat → U64 → Frames → Frames
  | 0, _, out => out
  | n + 1, fp, out =>
      if fp = 0 then out
      else if ¬ bounds.readable fp then out
      else
        let newFp := stack fp
        let returnAddr := stack (fp + 8)
        if newFp ≠ 0 ∧ newFp ≤ fp then
          -- not further up the stack: the return address is still valid
          if returnAddr ≠ 0 then out.push returnAddr else out
        else if returnAddr = 0 then out
        else walkLoop stack bounds n newFp (out.push returnAddr)

/-- Walk the frame-pointer chain starting at `initialFp`. -/
def walk (stack : U64 → U64) (initialFp : U64) (bounds : StackBounds) : Frames :=
  walkLoop stack bounds maxFrames initialFp Frames.empty

/-- The frames that `record_event` passes to `record`, if it gets so far. -/
def captureEvent (fp : U64) (bounds : Option StackBounds) (stack : U64 → U64) : Option Frames :=
  if fp = 0 then none
  else match bounds with
    | none => none
    | some bounds =>
        let frames := walk stack fp bounds
        if frames.count.val = 0 then none else some frames

/-- What is recorded has at least one frame. -/
theorem count_pos_of_captureEvent {fp : U64} {bounds : Option StackBounds} {stack : U64 → U64}
    {frames : Frames} (captured : captureEvent fp bounds stack = some frames) :
    1 ≤ frames.count.val := by
  unfold captureEvent at captured
  split at captured
  · cases captured
  · split at captured
    · cases captured
    · dsimp only at captured
      split at captured
      · cases captured
      · cases captured
        omega

end ModAlloc
