import ModAlloc.Backtrace.Walk
import ModAlloc.Lib.Follow

/-!
# What the walk reads and finds

The stack is any content of memory, so each saved frame pointer is any word. Whatever
it is, the walk reads the two words of at most eight frames, one above the other
inside the bounds (`walk_reads`), and what it returns is the chain of frames, up to
eight of them (`walk_chain`).
-/

namespace ModAlloc

open Follow

variable {stack : U64 → U64} {bounds : StackBounds} {fp : U64} {out : Frames}

/-! ## Reading through a monad -/

/-- The loop of the walk with any way to read a word. -/
def walkLoopM {m : Type → Type} [Monad m] (read : U64 → m U64) (bounds : StackBounds) :
    Nat → U64 → Frames → m Frames
  | 0, _, out => pure out
  | n + 1, fp, out =>
      if fp = 0 then pure out
      else if ¬ bounds.readable fp then pure out
      else do
        let newFp ← read fp
        let returnAddr ← read (fp + 8)
        if newFp ≠ 0 ∧ newFp ≤ fp then
          if returnAddr ≠ 0 then pure (out.push returnAddr) else pure out
        else if returnAddr = 0 then pure out
        else walkLoopM read bounds n newFp (out.push returnAddr)

def walkM {m : Type → Type} [Monad m] (read : U64 → m U64) (initialFp : U64)
    (bounds : StackBounds) : m Frames := walkLoopM read bounds maxFrames initialFp Frames.empty

/-- Reading a word and taking down its address. -/
def loggedRead (stack : U64 → U64) (a : U64) : StateM (List U64) U64 := fun log =>
  (stack a, log ++ [a])

theorem walkLoop_eq (n : Nat) (fp : U64) (out : Frames) :
    walkLoop stack bounds n fp out = walkLoopM (m := Id) stack bounds n fp out := by
  induction n generalizing fp out with
  | zero => rfl
  | succ n ih =>
      unfold walkLoop walkLoopM
      simp only [ih]
      rfl

/-! ## The checks -/

theorem and_15_eq_zero {a : U64} : a &&& 0xF = 0 ↔ a.toNat % 16 = 0 := by
  have low : (a &&& 0xF).toNat = a.toNat % 16 := by
    rw [BitVec.toNat_and]
    exact Nat.and_two_pow_sub_one_eq_mod _ 4
  constructor
  · intro aligned
    rw [← low, aligned]
    rfl
  · intro aligned
    exact BitVec.eq_of_toNat_eq (low.trans aligned)

/-- A frame can be read at `fp`: the 16 bytes there are aligned and inside the bounds. -/
def StackBounds.holds (bounds : StackBounds) (fp : U64) : Prop :=
  fp ≠ 0 ∧ fp.toNat % 16 = 0 ∧ bounds.low.toNat ≤ fp.toNat ∧ fp.toNat + 16 ≤ bounds.high.toNat

theorem holds_iff : bounds.holds fp ↔ fp ≠ 0 ∧ bounds.readable fp := by
  have below := bounds.high.isLt
  unfold StackBounds.holds StackBounds.readable
  rw [and_15_eq_zero, BitVec.le_def]
  constructor
  · rintro ⟨nonzero, aligned, low, high⟩
    exact ⟨nonzero, aligned, low, by omega, high⟩
  · rintro ⟨nonzero, aligned, low, _, high⟩
    exact ⟨nonzero, aligned, low, high⟩

/-- The saved frame pointer, if it goes further up the stack. -/
def nextFrame (stack : U64 → U64) (fp : U64) : Option U64 :=
  if fp < stack fp then some (stack fp) else none

section Iteration

variable {m : Type → Type} [Monad m] {read : U64 → m U64}

theorem walkLoopM_of_not_holds (refused : ¬ bounds.holds fp) (n : Nat) :
    walkLoopM read bounds n fp out = pure out := by
  cases n with
  | zero => rfl
  | succ n =>
      rw [walkLoopM]
      by_cases zero : fp = 0
      · rw [if_pos zero]
      · rw [if_neg zero, if_pos fun readable => refused (holds_iff.mpr ⟨zero, readable⟩)]

/-- How an iteration that reads a frame goes on: a saved frame pointer of zero is
one that does not go up. -/
theorem walkLoopM_of_holds (holds : bounds.holds fp) (n : Nat) :
    walkLoopM read bounds (n + 1) fp out = (do
      let newFp ← read fp
      let returnAddr ← read (fp + 8)
      if returnAddr = 0 then pure out
      else if fp < newFp then walkLoopM read bounds n newFp (out.push returnAddr)
      else pure (out.push returnAddr)) := by
  obtain ⟨nonzero, readable⟩ := holds_iff.mp holds
  have stop : ∀ out, walkLoopM read bounds n 0 out = pure out :=
    fun out => walkLoopM_of_not_holds (fun holds => holds.1 rfl) n
  rw [walkLoopM, if_neg nonzero, if_neg (not_not_intro readable)]
  refine bind_congr fun newFp => bind_congr fun returnAddr => ?_
  by_cases ends : returnAddr = 0
  · simp only [ends, ne_eq, not_true_eq_false, if_false, if_true, ite_self]
  · by_cases up : fp < newFp
    · have goesUp : ¬ (newFp ≠ 0 ∧ newFp ≤ fp) := fun back => absurd up (by bv_omega)
      simp only [if_neg goesUp, if_neg ends, if_pos up]
    · by_cases zero : newFp = 0
      · simp only [zero, ne_eq, not_true_eq_false, false_and, if_false, if_neg ends, stop]
        rw [if_neg (zero ▸ up)]
      · have back : newFp ≠ 0 ∧ newFp ≤ fp := ⟨zero, by bv_omega⟩
        simp only [if_pos back, ne_eq, ends, not_false_eq_true, if_true, if_false, if_neg up]

end Iteration

theorem walkLoop_of_not_holds (refused : ¬ bounds.holds fp) (n : Nat) :
    walkLoop stack bounds n fp out = out := by
  rw [walkLoop_eq, walkLoopM_of_not_holds refused]
  rfl

theorem walkLoop_of_holds (holds : bounds.holds fp) (n : Nat) :
    walkLoop stack bounds (n + 1) fp out =
      if stack (fp + 8) = 0 then out
      else if fp < stack fp then walkLoop stack bounds n (stack fp) (out.push (stack (fp + 8)))
      else out.push (stack (fp + 8)) := by
  rw [walkLoop_eq, walkLoopM_of_holds holds, walkLoop_eq]
  rfl

/-! ## What is read -/

/-- The words of a frame. -/
def frameWords (fp : U64) : List U64 := [fp, fp + 8]

/-- The frames that are read form a path up the stack. -/
theorem walkLoop_logged (n : Nat) (fp : U64) (out : Frames) (log : List U64) :
    ∃ frames : List U64,
      walkLoopM (loggedRead stack) bounds n fp out log =
        (walkLoop stack bounds n fp out, log ++ frames.flatMap frameWords) ∧
      frames.length ≤ n ∧ Path bounds.holds (nextFrame stack) fp frames := by
  induction n generalizing fp out log with
  | zero => exact ⟨[], by rw [List.flatMap_nil, List.append_nil]; rfl, Nat.le_refl _, .nil⟩
  | succ n ih =>
      by_cases holds : bounds.holds fp
      · rw [walkLoop_of_holds holds, walkLoopM_of_holds holds]
        have read : ∀ k : U64 → U64 → StateM (List U64) Frames,
            (do let newFp ← loggedRead stack fp
                let returnAddr ← loggedRead stack (fp + 8)
                k newFp returnAddr) log =
              k (stack fp) (stack (fp + 8)) (log ++ frameWords fp) := by
          intro k
          show k _ _ (log ++ [fp] ++ [fp + 8]) = _
          rw [List.append_assoc]
          rfl
        rw [read]
        by_cases goesOn : stack (fp + 8) ≠ 0 ∧ fp < stack fp
        · obtain ⟨frames, logged, few, path⟩ :=
            ih (stack fp) (out.push (stack (fp + 8))) (log ++ frameWords fp)
          refine ⟨fp :: frames, ?_, Nat.succ_le_succ few, path.cons holds (if_pos goesOn.2)⟩
          rw [if_neg goesOn.1, if_neg goesOn.1, if_pos goesOn.2, if_pos goesOn.2, logged,
            List.flatMap_cons, List.append_assoc]
        · refine ⟨[fp], ?_, Nat.succ_le_succ (Nat.zero_le _), .singleton holds⟩
          rw [List.flatMap_singleton]
          by_cases ends : stack (fp + 8) = 0
          · rw [if_pos ends, if_pos ends]
            rfl
          · have notUp : ¬ fp < stack fp := fun up => goesOn ⟨ends, up⟩
            rw [if_neg ends, if_neg ends, if_neg notUp, if_neg notUp]
            rfl
      · refine ⟨[], ?_, Nat.zero_le _, .nil⟩
        rw [walkLoop_of_not_holds holds, walkLoopM_of_not_holds holds, List.flatMap_nil,
          List.append_nil]
        rfl

/-- A path of frames goes up the stack. -/
theorem pairwise_lt_of_path {valid : U64 → Prop} {frames : List U64}
    (path : Path valid (nextFrame stack) fp frames) : frames.Pairwise (· < ·) := by
  refine List.isChain_iff_pairwise.mp (path.linked.imp fun a b link => ?_)
  unfold nextFrame at link
  split at link
  case isTrue up => cases link; exact up
  case isFalse => cases link

/-! ## What is returned -/

/-- The words of the buffer are non-zero up to `count` and zero from there on. -/
def Frames.Clean (f : Frames) : Prop := ∀ j : Fin 8, f.frames.get j ≠ 0 ↔ j.val < f.count.val

theorem Frames.Clean.push (clean : out.Clean) {a : U64} (nonzero : a ≠ 0) : (out.push a).Clean := by
  intro j
  by_cases room : out.count.val < 8
  · simp only [Frames.push, dif_pos room, Vector.get_eq_getElem, Vector.getElem_set]
    by_cases here : out.count.val = j.val
    · simp only [here, if_true, ne_eq, nonzero, not_false_eq_true, true_iff]
      exact Nat.lt_succ_self _
    · have := clean j
      rw [Vector.get_eq_getElem] at this
      rw [if_neg here, this]
      show _ ↔ j.val < out.count.val + 1
      omega
  · simp only [Frames.push, dif_neg room]
    exact clean j

theorem walkLoop_clean (clean : out.Clean) (n : Nat) : (walkLoop stack bounds n fp out).Clean := by
  induction n generalizing fp out with
  | zero => exact clean
  | succ n ih =>
      by_cases holds : bounds.holds fp
      · rw [walkLoop_of_holds holds]
        split
        · exact clean
        case isFalse nonzero =>
            split
            · exact ih (clean.push nonzero)
            · exact clean.push nonzero
      · rw [walkLoop_of_not_holds holds]
        exact clean

theorem Frames.trace_push (room : out.count.val < 8) (a : U64) :
    (out.push a).trace = out.trace ++ [a] := by
  have count : (out.push a).count.val = out.count.val + 1 := by rw [Frames.push, dif_pos room]
  refine List.ext_getElem ?_ fun j h₁ h₂ => ?_
  · rw [Frames.length_trace, count, List.length_append, Frames.length_trace, List.length_singleton]
  · rw [List.length_append, Frames.length_trace, List.length_singleton] at h₂
    simp only [Frames.trace, Frames.push, dif_pos room, List.getElem_take, Vector.getElem_toList,
      Vector.getElem_set]
    by_cases last : out.count.val = j
    · subst last
      rw [if_pos rfl, List.getElem_append_right (by simp)]
      simp
    · rw [if_neg last, List.getElem_append_left (by simp; omega), List.getElem_take,
        Vector.getElem_toList]

/-- **The walk is total and reads its own stack only.** It reads the two words of at
most eight frames, each of them aligned and with its 16 bytes inside the bounds, one
above the other; and what it returns are at most eight words that are not zero, with
zeros behind. -/
theorem walk_reads (stack : U64 → U64) (initialFp : U64) (bounds : StackBounds) :
    ∃ frames : List U64,
      walkM (loggedRead stack) initialFp bounds [] =
        (walk stack initialFp bounds, frames.flatMap frameWords) ∧
      frames.length ≤ 8 ∧ frames.Pairwise (· < ·) ∧
      (∀ fp ∈ frames, fp ≠ 0 ∧ fp.toNat % 16 = 0 ∧ fp.toNat + 16 < 2 ^ 64 ∧
        ∀ a ∈ frameWords fp, bounds.low.toNat ≤ a.toNat ∧ a.toNat + 8 ≤ bounds.high.toNat) ∧
      (walk stack initialFp bounds).count.val ≤ 8 ∧
      ∀ j : Fin 8, ((walk stack initialFp bounds).frames.get j ≠ 0 ↔
        j.val < (walk stack initialFp bounds).count.val) := by
  obtain ⟨frames, logged, few, path⟩ := walkLoop_logged maxFrames initialFp Frames.empty []
  have clean : Frames.empty.Clean := by
    intro j
    simp [Frames.empty, Vector.get_eq_getElem]
  refine ⟨frames, logged, few, pairwise_lt_of_path path, ?_, ?_, walkLoop_clean clean _⟩
  · intro fp isFrame
    obtain ⟨nonzero, aligned, low, high⟩ := path.valid fp isFrame
    have below := bounds.high.isLt
    refine ⟨nonzero, aligned, by omega, fun a isWord => ?_⟩
    simp only [frameWords, List.mem_cons, List.not_mem_nil, or_false] at isWord
    rcases isWord with rfl | rfl
    · exact ⟨low, by omega⟩
    · rw [BitVec.toNat_add, Nat.mod_eq_of_lt (by simp; omega)]
      exact ⟨by simp; omega, by simp; omega⟩
  · have := (walk stack initialFp bounds).count.isLt
    omega

/-! ## The chain -/

/-- A frame of the chain: it can be read, and its return address is not zero. -/
def IsFrame (stack : U64 → U64) (bounds : StackBounds) (fp : U64) : Prop :=
  bounds.holds fp ∧ stack (fp + 8) ≠ 0

/-- The chain from a frame pointer, as long as it is. -/
def FrameChain (stack : U64 → U64) (bounds : StackBounds) (fp : U64) (frames : List U64) : Prop :=
  Longest (IsFrame stack bounds) (nextFrame stack) fp frames

theorem exists_frameChain (stack : U64 → U64) (bounds : StackBounds) (fp : U64) :
    ∃ frames, FrameChain stack bounds fp frames := by
  refine exists_longest (n := 2 ^ 64) fun frames path => ?_
  have nodup : (frames.map BitVec.toNat).Nodup := by
    refine List.Nodup.map (fun a b => BitVec.eq_of_toNat_eq) ?_
    exact (pairwise_lt_of_path path).imp fun up => by bv_omega
  have inRange : (frames.map BitVec.toNat).toFinset ⊆ Finset.range (2 ^ 64) := by
    intro a inMap
    obtain ⟨b, _, rfl⟩ := List.mem_map.mp (List.mem_toFinset.mp inMap)
    exact Finset.mem_range.mpr b.isLt
  have few := Finset.card_le_card inRange
  rwa [List.toFinset_card_of_nodup nodup, List.length_map, Finset.card_range] at few

theorem walkLoop_trace {n : Nat} (room : out.count.val + n ≤ 8) {frames : List U64}
    (chain : FrameChain stack bounds fp frames) :
    (walkLoop stack bounds n fp out).trace =
      out.trace ++ (frames.take n).map fun f => stack (f + 8) := by
  induction n generalizing fp out frames with
  | zero => rw [List.take_zero, List.map_nil, List.append_nil]; rfl
  | succ n ih =>
      by_cases isFrame : IsFrame stack bounds fp
      · have count : (out.push (stack (fp + 8))).count.val = out.count.val + 1 := by
          rw [Frames.push, dif_pos (by omega)]
        rw [walkLoop_of_holds isFrame.1, if_neg isFrame.2]
        by_cases up : fp < stack fp
        · obtain ⟨rest, rfl, onward⟩ := chain.cons isFrame (if_pos up)
          rw [if_pos up, ih (by omega) onward, Frames.trace_push (by omega), List.append_assoc,
            List.take_succ_cons, List.map_cons, List.singleton_append]
        · obtain rfl := chain.last isFrame (if_neg up)
          rw [if_neg up, Frames.trace_push (by omega), List.take_succ_cons, List.take_nil,
            List.map_singleton]
      · obtain rfl := chain.1.eq_nil isFrame
        rw [List.take_nil, List.map_nil, List.append_nil]
        by_cases holds : bounds.holds fp
        · have ends : stack (fp + 8) = 0 := by
            by_contra nonzero
            exact isFrame ⟨holds, nonzero⟩
          rw [walkLoop_of_holds holds, if_pos ends]
        · rw [walkLoop_of_not_holds holds]

/-- **The walk returns exactly the chain**, up to eight frames of it. -/
theorem walk_chain (stack : U64 → U64) (initialFp : U64) (bounds : StackBounds) :
    (∃ frames, FrameChain stack bounds initialFp frames) ∧
      ∀ frames, FrameChain stack bounds initialFp frames →
        (walk stack initialFp bounds).trace = (frames.take 8).map fun f => stack (f + 8) := by
  refine ⟨exists_frameChain stack bounds initialFp, fun frames chain => ?_⟩
  have empty : Frames.empty.trace = [] := rfl
  have room : Frames.empty.count.val + maxFrames ≤ 8 := Nat.le_refl 8
  have returned := walkLoop_trace room chain
  rw [empty, List.nil_append] at returned
  exact returned

end ModAlloc
