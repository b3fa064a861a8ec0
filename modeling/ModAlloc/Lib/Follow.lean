import Mathlib

/-!
# Following links

`next` says where a link leads, `valid` where it may lead. A `Path` from `a` follows
links through valid elements only, and the `Longest` one does so for as long as it
can: it is empty where `a` is not valid, and otherwise it is `a` and the longest path
from the next element (`Longest.cons`, `Longest.last`).
-/

namespace Follow

variable {α : Type*}

structure Path (valid : α → Prop) (next : α → Option α) (a : α) (l : List α) : Prop where
  start : ∀ b ∈ l.head?, b = a
  valid : ∀ b ∈ l, valid b
  linked : l.IsChain fun b c => next b = some c

def Longest (valid : α → Prop) (next : α → Option α) (a : α) (l : List α) : Prop :=
  Path valid next a l ∧ ∀ l', Path valid next a l' → l'.length ≤ l.length

variable {valid : α → Prop} {next : α → Option α} {a b : α} {l : List α}

theorem Path.nil : Path valid next a [] :=
  ⟨fun _ isHead => (nomatch isHead), fun _ inNil => (nomatch inNil), .nil⟩

theorem Path.singleton (ok : valid a) : Path valid next a [a] := by
  refine ⟨fun b isHead => ?_, fun b inList => ?_, .singleton a⟩
  · cases isHead
    rfl
  · rwa [List.mem_singleton.mp inList]

/-- A path goes on with what the first element leads to. -/
theorem Path.tail (path : Path valid next a (b :: l)) (goesOn : l ≠ []) :
    ∃ c, next a = some c ∧ Path valid next c l := by
  obtain ⟨c, l, rfl⟩ := List.exists_cons_of_ne_nil goesOn
  obtain ⟨link, linked⟩ := List.isChain_cons_cons.mp path.linked
  rw [path.start b rfl] at link
  refine ⟨c, link, fun d isHead => ?_, fun d inRest => path.valid d (List.mem_cons_of_mem _ inRest),
    linked⟩
  cases isHead
  rfl

theorem Path.cons (ok : valid a) (link : next a = some b) (path : Path valid next b l) :
    Path valid next a (a :: l) := by
  refine ⟨fun c isHead => ?_, fun c inList => ?_, ?_⟩
  · cases isHead
    rfl
  · rcases List.mem_cons.mp inList with rfl | inRest
    · exact ok
    · exact path.valid c inRest
  · refine path.linked.cons fun c isHead => ?_
    rw [path.start c isHead, link]

theorem Path.eq_nil (path : Path valid next a l) (stuck : ¬ valid a) : l = [] := by
  cases l with
  | nil => rfl
  | cons b l => exact absurd (path.start b rfl ▸ path.valid b List.mem_cons_self) stuck

theorem Longest.head (longest : Longest valid next a l) (ok : valid a) :
    ∃ l', l = a :: l' := by
  cases l with
  | nil =>
      have := longest.2 [a] (.singleton ok)
      simp at this
  | cons b l' => exact ⟨l', by rw [longest.1.start b rfl]⟩

theorem Longest.last (longest : Longest valid next a l) (ok : valid a) (ends : next a = none) :
    l = [a] := by
  obtain ⟨l', rfl⟩ := longest.head ok
  by_cases empty : l' = []
  · rw [empty]
  · obtain ⟨c, link, _⟩ := longest.1.tail empty
    rw [ends] at link
    cases link

theorem Longest.cons (longest : Longest valid next a l) (ok : valid a) (link : next a = some b) :
    ∃ l', l = a :: l' ∧ Longest valid next b l' := by
  obtain ⟨l', rfl⟩ := longest.head ok
  refine ⟨l', rfl, ?_, fun l'' path => ?_⟩
  · by_cases empty : l' = []
    · exact empty ▸ .nil
    · obtain ⟨c, link', path⟩ := longest.1.tail empty
      rw [link] at link'
      cases link'
      exact path
  · exact Nat.le_of_succ_le_succ (longest.2 (a :: l'') (path.cons ok link))

/-- Where paths do not grow without bound, there is a longest one. -/
theorem exists_longest {n : Nat} (bounded : ∀ l, Path valid next a l → l.length ≤ n) :
    ∃ l, Longest valid next a l := by
  classical
  have atMost : ∃ m, ∀ l, Path valid next a l → l.length ≤ m := ⟨n, bounded⟩
  have bound := Nat.find_spec atMost
  by_contra none
  have shorter : ∀ l, Path valid next a l → l.length < Nat.find atMost := by
    intro l path
    refine lt_of_le_of_ne (bound l path) fun same => none ⟨l, path, fun l' path' => ?_⟩
    rw [same]
    exact bound l' path'
  have positive := shorter [] .nil
  refine Nat.find_min atMost (Nat.sub_lt positive Nat.one_pos) fun l path => ?_
  have := shorter l path
  omega

end Follow
