import ModAlloc.Basic

/-!
# Frame arrays and their hash

`Frames` is the buffer the frame-pointer walk fills, `hashFrames` the FxHash
variant of its first `count` words. The hash reserves `0` for an empty bucket.
-/

namespace ModAlloc

/-- Maximum number of frames captured per allocation. -/
def maxFrames : Nat := 8

/-- Frame buffer plus the count of valid entries. The count is a `u8` that the
walk never takes past the length of the buffer. -/
structure Frames where
  frames : Vector U64 8
  count : Fin 9
deriving DecidableEq, Repr

def Frames.empty : Frames := ⟨Vector.replicate 8 0, 0⟩

/-- The captured trace: `frames[..count]`, top of stack first. -/
def Frames.trace (f : Frames) : List U64 := f.frames.toList.take f.count

def hashK : U64 := 0x517cc1b727220a95

/-- One round of the hash loop. -/
def hashRound (h frame : U64) : U64 := (h.rotateLeft 5 ^^^ frame) * hashK

/-- The value of `h` after the loop, before `0` is replaced. -/
def rawHash (trace : List U64) : U64 := trace.foldl hashRound 0

/-- Hash a prefix of a frame array. -/
def hashFrames (frames : Vector U64 8) (count : Nat) : U64 :=
  let n := if count > 8 then 8 else count
  let h := rawHash (frames.toList.take n)
  if h = 0 then 1 else h

/-- The hash under which a capture is aggregated. -/
def Frames.hash (f : Frames) : U64 := hashFrames f.frames f.count

/-- The hash of a trace. -/
def traceHash (trace : List U64) : U64 := if rawHash trace = 0 then 1 else rawHash trace

/-- The hash of a buffer is that of its trace. -/
theorem hashFrames_eq (frames : Vector U64 8) (count : Nat) :
    hashFrames frames count = traceHash (frames.toList.take count) := by
  rw [traceHash, hashFrames]
  split
  case isTrue large =>
      have whole : ∀ n, 8 ≤ n → frames.toList.take n = frames.toList := by
        intro n enough
        exact List.take_of_length_le (by rwa [Vector.length_toList])
      rw [whole 8 (Nat.le_refl 8), whole count (Nat.le_of_lt large)]
  case isFalse => rfl

/-- The hash of a capture is a function of its trace. -/
theorem Frames.hash_eq (f : Frames) : f.hash = traceHash f.trace := by
  rw [hash, hashFrames_eq, trace]

theorem traceHash_ne_zero (trace : List U64) : traceHash trace ≠ 0 := by
  unfold traceHash
  split
  · decide
  · assumption

theorem hashFrames_ne_zero (frames : Vector U64 8) (count : Nat) :
    hashFrames frames count ≠ 0 := by
  rw [hashFrames_eq]
  exact traceHash_ne_zero _

@[simp] theorem Frames.hash_ne_zero (f : Frames) : f.hash ≠ 0#64 :=
  hashFrames_ne_zero _ _

/-- Frames at positions past `count` do not count. -/
theorem hashFrames_congr {frames frames' : Vector U64 8} {count : Nat}
    (same : frames.toList.take count = frames'.toList.take count) :
    hashFrames frames count = hashFrames frames' count := by
  rw [hashFrames_eq, hashFrames_eq, same]

/-! ## Filling a frame buffer -/

/-- `frames[..n]`, with zeros behind. -/
def firstFrames (frames : Vector U64 8) (n : Nat) : Vector U64 8 :=
  Vector.ofFn fun j => if j.val < n then frames.get j else 0

theorem getElem_firstFrames (frames : Vector U64 8) (n : Nat) {j : Nat} (inRange : j < 8) :
    (firstFrames frames n)[j] = if j < n then frames[j] else 0 := by
  simp only [firstFrames, Vector.getElem_ofFn, Vector.get_eq_getElem]

theorem firstFrames_zero (frames : Vector U64 8) : firstFrames frames 0 = Vector.replicate 8 0 := by
  refine Vector.ext fun j inRange => ?_
  simp only [getElem_firstFrames, Nat.not_lt_zero, if_false, Vector.getElem_replicate]

theorem Frames.length_trace (f : Frames) : f.trace.length = f.count := by
  rw [trace, List.length_take, Vector.length_toList]
  omega

/-- The buffer of a trace. -/
theorem Frames.ofFn_trace (f : Frames) :
    (Vector.ofFn fun j : Fin 8 => f.trace.getD j 0) = firstFrames f.frames f.count := by
  refine Vector.ext fun j inRange => ?_
  rw [Vector.getElem_ofFn, getElem_firstFrames, List.getD_eq_getElem?_getD, trace, List.getElem?_take]
  split
  · rw [Vector.getElem?_toList, Vector.getElem?_eq_getElem inRange, Option.getD_some]
  · rfl

/-- Filling in one more frame. -/
theorem firstFrames_set (frames : Vector U64 8) {i : Nat} (bound : i < 8) :
    (firstFrames frames i).set i frames[i] bound = firstFrames frames (i + 1) := by
  refine Vector.ext fun j inRange => ?_
  rw [Vector.getElem_set, getElem_firstFrames, getElem_firstFrames]
  by_cases here : i = j
  · subst here
    rw [if_pos rfl, if_pos (Nat.lt_succ_self _)]
  · rw [if_neg here]
    exact if_congr (by omega) rfl rfl

theorem firstFrames_firstFrames (frames : Vector U64 8) (n : Nat) :
    firstFrames (firstFrames frames n) n = firstFrames frames n := by
  refine Vector.ext fun j inRange => ?_
  rw [getElem_firstFrames, getElem_firstFrames]
  split <;> rfl

/-- The first frames of a buffer that was built from those of another. -/
theorem take_ofFn (f : U64 → U64) (frames rest : Vector U64 8) (n : Nat) :
    (Vector.ofFn fun j : Fin 8 => if j.val < n then f (frames.get j) else rest.get j).toList.take n =
      (frames.toList.take n).map f := by
  refine List.ext_getElem (by simp) fun j h₁ h₂ => ?_
  have inRange : j < n := by
    simp only [List.length_take] at h₁
    omega
  rw [List.getElem_take, List.getElem_map, List.getElem_take, Vector.getElem_toList,
    Vector.getElem_toList, Vector.getElem_ofFn, if_pos inRange, Vector.get_eq_getElem]

theorem take_firstFrames (frames : Vector U64 8) (n : Nat) :
    (firstFrames frames n).toList.take n = frames.toList.take n := by
  have same := take_ofFn id frames (Vector.replicate 8 0) n
  simp only [id_eq, Vector.get_replicate, List.map_id] at same
  exact same

end ModAlloc
