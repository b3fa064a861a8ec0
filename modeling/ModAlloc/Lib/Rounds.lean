import Mathlib

/-!
# Folds of reversible rounds

A round takes a state and an input to the next state. If it is a bijection in each of
the two (`Reversible`), then inputs that differ in one place lead from one state to two
(`Reversible.foldl_ne`), and one input leads from a state to any other
(`Reversible.existsUnique`). Rounds of a rotation, an exclusive or and a multiplication
by a unit are reversible (`reversible_rotateXorMul`).
-/

namespace Rounds

variable {σ α : Type*} {round : σ → α → σ}

structure Reversible (round : σ → α → σ) : Prop where
  state : ∀ a, Function.Bijective fun s => round s a
  input : ∀ s, Function.Bijective (round s)

namespace Reversible

variable (reversible : Reversible round)

include reversible

theorem foldl (l : List α) : Function.Bijective fun s => l.foldl round s := by
  induction l with
  | nil => exact Function.bijective_id
  | cons a l ih => exact ih.comp (reversible.state a)

/-- **Inputs that differ in one place** lead to different states. -/
theorem foldl_ne {l l' : List α} (lengths : l.length = l'.length) (s : σ)
    (one : ∃! i : Nat, l[i]? ≠ l'[i]?) : l.foldl round s ≠ l'.foldl round s := by
  obtain ⟨i, differ, only⟩ := one
  induction l generalizing l' s i with
  | nil =>
      rw [List.length_nil, eq_comm, List.length_eq_zero_iff] at lengths
      rw [lengths] at differ
      exact absurd rfl differ
  | cons a l ih =>
      cases l' with
      | nil => cases lengths
      | cons b l' =>
          have rest := Nat.succ.inj lengths
          rw [List.foldl_cons, List.foldl_cons]
          by_cases same : a = b
          · -- the place is behind the first
            subst same
            cases i with
            | zero => exact absurd rfl differ
            | succ i =>
                refine ih rest (round s a) i differ fun j differ' => ?_
                exact Nat.succ.inj (only (j + 1) differ')
          · -- nothing behind the first differs
            have zero : i = 0 := (only 0 fun heads => same (Option.some.inj heads)).symm
            have tails : l = l' := by
              refine List.ext_getElem? fun j => ?_
              by_contra differ'
              exact absurd ((only (j + 1) differ').trans zero) (Nat.succ_ne_zero j)
            rw [← tails]
            exact fun states => same ((reversible.input s).1 ((reversible.foldl l).1 states))

theorem existsUnique (s t : σ) : ∃! a, round s a = t := (reversible.input s).existsUnique t

end Reversible

/-! ## Rounds on words -/

variable {w : Nat}

theorem rotateLeft_injective (r : Nat) : Function.Injective fun x : BitVec w => x.rotateLeft r := by
  refine Function.LeftInverse.injective (g := fun x => x.rotateRight r) fun x => ?_
  refine BitVec.eq_of_getElem_eq fun i inRange => ?_
  have turn := Nat.mod_lt r (Nat.zero_lt_of_lt inRange)
  simp only [BitVec.getElem_rotateRight, BitVec.getElem_rotateLeft]
  split
  · rw [dif_neg (by omega)]
    congr 1
    omega
  · rw [dif_pos (by omega)]
    congr 1
    omega

theorem reversible_rotateXorMul (r : Nat) {k : BitVec w} (unit : IsUnit k) :
    Reversible fun h x : BitVec w => (h.rotateLeft r ^^^ x) * k where
  state x := by
    refine Finite.injective_iff_bijective.mp fun h h' same => ?_
    have mixed := (BitVec.xor_left_inj x).mp (unit.mul_left_injective same)
    exact rotateLeft_injective r mixed
  input h := by
    refine Finite.injective_iff_bijective.mp fun x x' same => ?_
    exact (BitVec.xor_right_inj _).mp (unit.mul_left_injective same)

end Rounds
