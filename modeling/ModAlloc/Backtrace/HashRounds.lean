import ModAlloc.Backtrace.Hash
import ModAlloc.Lib.Rounds

/-!
# What the hash tells apart

Each round of `hash_frames` is reversible, the constant `K` being odd. Two traces that
differ in one frame therefore leave the loop with different values, and share a hash
only where the reserved `0` is replaced by `1` (`hashFrames_separates`).
-/

namespace ModAlloc

open Rounds

theorem isUnit_hashK : IsUnit hashK := IsUnit.of_mul_eq_one 0x2040003d780970bd (by decide)

theorem reversible_hashRound : Reversible hashRound := reversible_rotateXorMul 5 isUnit_hashK

/-- One more frame. -/
theorem rawHash_concat (trace : List U64) (frame : U64) :
    rawHash (trace ++ [frame]) = hashRound (rawHash trace) frame := by
  rw [rawHash, List.foldl_concat, ← rawHash]

/-- Different values share a hash only where one of them is replaced by the other. -/
theorem traceHash_eq_iff {trace trace' : List U64} (differ : rawHash trace ≠ rawHash trace') :
    traceHash trace = traceHash trace' ↔
      (rawHash trace = 0 ∧ rawHash trace' = 1) ∨ (rawHash trace = 1 ∧ rawHash trace' = 0) := by
  rw [traceHash, traceHash]
  by_cases zero : rawHash trace = 0
  · have nonzero : rawHash trace' ≠ 0 := fun zero' => differ (zero.trans zero'.symm)
    rw [if_pos zero, if_neg nonzero]
    refine ⟨fun one => .inl ⟨zero, one.symm⟩, ?_⟩
    rintro (⟨_, one⟩ | ⟨_, zero'⟩)
    · exact one.symm
    · exact absurd zero' nonzero
  · rw [if_neg zero]
    by_cases zero' : rawHash trace' = 0
    · rw [if_pos zero']
      refine ⟨fun one => .inr ⟨one, zero'⟩, ?_⟩
      rintro (⟨isZero, _⟩ | ⟨one, _⟩)
      · exact absurd isZero zero
      · exact one
    · rw [if_neg zero']
      refine ⟨fun same => absurd same differ, ?_⟩
      rintro (⟨isZero, _⟩ | ⟨_, isZero⟩)
      · exact absurd isZero zero
      · exact absurd isZero zero'

/-- The hashes of two captures that differ in one frame. -/
theorem Frames.hash_eq_iff {f g : Frames} (counts : f.count = g.count)
    (one : ∃! i : Nat, f.trace[i]? ≠ g.trace[i]?) :
    f.hash = g.hash ↔
      (rawHash f.trace = 0 ∧ rawHash g.trace = 1) ∨ (rawHash f.trace = 1 ∧ rawHash g.trace = 0) := by
  have lengths : f.trace.length = g.trace.length := by
    rw [Frames.length_trace, Frames.length_trace, counts]
  rw [Frames.hash_eq, Frames.hash_eq]
  exact traceHash_eq_iff (reversible_hashRound.foldl_ne lengths 0 one)

theorem getElem?_take_toList (frames : Vector U64 8) (n : Nat) (i : Fin 8) (below : i.val < n) :
    (frames.toList.take n)[i.val]? = some (frames.get i) := by
  rw [List.getElem?_take_of_lt below, Vector.getElem?_toList, Vector.getElem?_eq_getElem i.isLt]
  rfl

/-- A place where two traces differ is a position of their buffers. -/
theorem exists_position {frames frames' : Vector U64 8} {n j : Nat}
    (differ : (frames.toList.take n)[j]? ≠ (frames'.toList.take n)[j]?) :
    ∃ i : Fin 8, i.val = j ∧ i.val < n ∧ frames.get i ≠ frames'.get i := by
  have bound : j < n ∧ j < 8 := by
    by_contra outside
    have beyond : ∀ f : Vector U64 8, (f.toList.take n)[j]? = none := by
      intro f
      apply List.getElem?_eq_none
      rw [List.length_take, Vector.length_toList]
      omega
    exact differ ((beyond frames).trans (beyond frames').symm)
  obtain ⟨below, inRange⟩ := bound
  refine ⟨⟨j, inRange⟩, rfl, below, fun same => differ ?_⟩
  rw [getElem?_take_toList frames n ⟨j, inRange⟩ below,
    getElem?_take_toList frames' n ⟨j, inRange⟩ below, same]

/-- Buffers whose first frames differ in one position have traces that do. -/
theorem traces_differ {frames frames' : Vector U64 8} {n : Nat}
    (one : ∃! i : Fin 8, i.val < n ∧ frames.get i ≠ frames'.get i) :
    ∃! i : Nat, (frames.toList.take n)[i]? ≠ (frames'.toList.take n)[i]? := by
  obtain ⟨i, ⟨below, differ⟩, only⟩ := one
  refine ⟨i, ?_, fun j differ' => ?_⟩
  · show (frames.toList.take n)[i.val]? ≠ (frames'.toList.take n)[i.val]?
    rw [getElem?_take_toList frames n i below, getElem?_take_toList frames' n i below]
    exact fun same => differ (Option.some.inj same)
  · obtain ⟨i', rfl, position⟩ := exists_position differ'
    exact congrArg Fin.val (only i' position)

/-- **What the hash tells apart.** Where the first `n` frames differ in exactly one
position, so do the values after the loop, and the hashes are the same only if these are
`0` and `1`. Exactly one added frame leaves the value as it is. The hash is never `0`, and
frames from position `n` on do not count. -/
theorem hashFrames_separates :
    (∀ (n : Nat) (frames frames' : Vector U64 8),
      (∃! i : Fin 8, i.val < n ∧ frames.get i ≠ frames'.get i) →
        let raw := rawHash (frames.toList.take n)
        let raw' := rawHash (frames'.toList.take n)
        raw ≠ raw' ∧ (hashFrames frames n = hashFrames frames' n ↔
          (raw = 0 ∧ raw' = 1) ∨ (raw = 1 ∧ raw' = 0))) ∧
    (∀ trace : List U64, ∃! frame, rawHash (trace ++ [frame]) = rawHash trace) ∧
    (∀ (frames : Vector U64 8) (n : Nat), hashFrames frames n ≠ 0) ∧
    ∀ (n : Nat) (frames frames' : Vector U64 8),
      (∀ i : Fin 8, i.val < n → frames.get i = frames'.get i) →
        hashFrames frames n = hashFrames frames' n := by
  refine ⟨?_, ?_, hashFrames_ne_zero, ?_⟩
  · intro n frames frames' one
    have lengths : (frames.toList.take n).length = (frames'.toList.take n).length := by
      rw [List.length_take, List.length_take, Vector.length_toList, Vector.length_toList]
    have differ := reversible_hashRound.foldl_ne lengths 0 (traces_differ one)
    rw [hashFrames_eq, hashFrames_eq]
    exact ⟨differ, traceHash_eq_iff differ⟩
  · intro trace
    simp only [rawHash_concat]
    exact reversible_hashRound.existsUnique (rawHash trace) (rawHash trace)
  · intro n frames frames' same
    apply hashFrames_congr
    refine List.ext_getElem? fun j => ?_
    by_contra differ
    obtain ⟨i, _, below, differ'⟩ := exists_position differ
    exact differ' (same i below)

/-- The values `0` and `1` do occur, for one frame each, and are the exception. -/
theorem hashFrames_separates_reserved :
    let frames : Vector U64 8 := #v[0, 0, 0, 0, 0, 0, 0, 0]
    let frames' : Vector U64 8 := #v[0x2040003d780970bd, 0, 0, 0, 0, 0, 0, 0]
    rawHash (frames.toList.take 1) ≠ rawHash (frames'.toList.take 1) ∧
      hashFrames frames 1 = hashFrames frames' 1 := by
  intro frames frames'
  obtain ⟨differ, same⟩ := hashFrames_separates.1 1 frames frames'
    ⟨0, by decide, by decide⟩
  exact ⟨differ, same.mpr (.inl ⟨by decide, by decide⟩)⟩

end ModAlloc
