import Mathlib

/-!
# The distinct elements of a list, in order of first occurrence

`List.eraseDups` lists them, and `rank` numbers them. More elements behind do not
change the numbers given so far (`rank_append`), so that elements can be numbered
as they come.
-/

namespace FirstOccurrence

variable {κ : Type*} [BEq κ] [LawfulBEq κ] {l : List κ} {k : κ}

theorem eraseDups_concat [DecidableEq κ] (l : List κ) (k : κ) :
    (l ++ [k]).eraseDups = if k ∈ l then l.eraseDups else l.eraseDups ++ [k] := by
  rw [List.eraseDups_append]
  split
  case isTrue old => simp [List.removeAll, old]
  case isFalse new => simp [List.removeAll, List.eraseDups_cons, new]

theorem nodup_eraseDups [DecidableEq κ] (l : List κ) : l.eraseDups.Nodup := by
  induction l using List.reverseRecOn with
  | nil => exact List.nodup_nil
  | append_singleton l k ih =>
      rw [eraseDups_concat]
      split
      · exact ih
      case isFalse new =>
          refine List.nodup_append.mpr ⟨ih, List.nodup_singleton _, fun a inDups b here => ?_⟩
          rw [List.mem_singleton.mp here]
          rintro rfl
          exact new (List.mem_eraseDups.mp inDups)

theorem length_eraseDups_le [DecidableEq κ] (l : List κ) : l.eraseDups.length ≤ l.length :=
  ((nodup_eraseDups l).subperm fun _ inDups => List.mem_eraseDups.mp inDups).length_le

/-- The number of an element. -/
def rank (l : List κ) (k : κ) : Nat := l.eraseDups.idxOf k

theorem rank_lt (mem : k ∈ l) : rank l k < l.eraseDups.length :=
  List.idxOf_lt_length_of_mem (List.mem_eraseDups.mpr mem)

theorem getElem?_rank (mem : k ∈ l) : l.eraseDups[rank l k]? = some k := by
  rw [List.getElem?_eq_getElem (rank_lt mem)]
  exact congrArg some (List.getElem_idxOf (rank_lt mem))

/-- **Numbers that are given stay.** -/
theorem rank_append (mem : k ∈ l) (more : List κ) : rank (l ++ more) k = rank l k := by
  rw [rank, List.eraseDups_append, List.idxOf_append, if_pos (List.mem_eraseDups.mpr mem), rank]

/-- A new element has the next number. -/
theorem rank_concat [DecidableEq κ] (new : k ∉ l) : rank (l ++ [k]) k = l.eraseDups.length := by
  rw [rank, eraseDups_concat, if_neg new, List.idxOf_append,
    if_neg fun mem => new (List.mem_eraseDups.mp mem), List.idxOf_cons_self, Nat.zero_add]

/-- Every number is given to an element. -/
theorem exists_rank_eq [DecidableEq κ] {i : Nat} (bound : i < l.eraseDups.length) :
    ∃ k ∈ l, rank l k = i := by
  refine ⟨l.eraseDups[i], List.mem_eraseDups.mp (List.getElem_mem bound), ?_⟩
  exact (nodup_eraseDups l).idxOf_getElem i bound

end FirstOccurrence
