import Mathlib

/-!
# Sorted indices

A list is sorted by a key, stably, and of each run of equal keys the first element is
kept. The index made of it has each key once, in order (`index_sorted`), with the
element that came first in the list (`find?_index`). A binary search in an index ends
at the predecessor of its target: the element with the greatest key that is not above
it (`Found.of_index_some`), if there is one (`Found.of_index_none`).
-/

namespace SortedIndex

variable {α κ : Type*} [LinearOrder κ] {key : α → κ} {l xs : List α} {target : κ} {a : α}

/-! ## Sorting and removing duplicates -/

/-- `sort_by_key`, a stable sort. -/
def sortByKey (key : α → κ) (l : List α) : List α := l.mergeSort fun a b => key a ≤ key b

/-- `dedup_by_key`: of each run of equal keys, the first element. -/
def dedupByKey (key : α → κ) (l : List α) : List α := l.destutter fun a b => key a ≠ key b

def index (key : α → κ) (l : List α) : List α := dedupByKey key (sortByKey key l)

section Order

variable (key)

theorem le_trans' (a b c : α) (first : decide (key a ≤ key b) = true)
    (second : decide (key b ≤ key c) = true) : decide (key a ≤ key c) = true :=
  decide_eq_true (le_trans (of_decide_eq_true first) (of_decide_eq_true second))

theorem le_total' (a b : α) : (decide (key a ≤ key b) || decide (key b ≤ key a)) = true := by
  rw [Bool.or_eq_true, decide_eq_true_eq, decide_eq_true_eq]
  exact le_total (key a) (key b)

theorem sortByKey_sorted (l : List α) : (sortByKey key l).Pairwise fun a b => key a ≤ key b :=
  (List.pairwise_mergeSort (le_trans' key) (le_total' key) l).imp of_decide_eq_true

/-- **A stable sort keeps the elements of one key in order.** -/
theorem filter_sortByKey (l : List α) (k : κ) :
    (sortByKey key l).filter (fun a => key a = k) = l.filter fun a => key a = k := by
  have equal : (l.filter fun a => key a = k).Pairwise fun a b => decide (key a ≤ key b) = true := by
    refine List.pairwise_of_forall_mem_list fun a inFilter b inFilter' => ?_
    have isK : key a = k := of_decide_eq_true (List.mem_filter.mp inFilter).2
    have isK' : key b = k := of_decide_eq_true (List.mem_filter.mp inFilter').2
    exact decide_eq_true (by rw [isK, isK'])
  have kept := (List.sublist_mergeSort (le_trans' key) (le_total' key) equal
    List.filter_sublist).filter fun a => key a = k
  rw [List.filter_filter] at kept
  simp only [Bool.and_self] at kept
  refine (kept.eq_of_length ?_).symm
  exact ((List.mergeSort_perm l _).filter _).length_eq.symm

theorem find?_sortByKey (l : List α) (k : κ) :
    (sortByKey key l).find? (fun a => key a = k) = l.find? fun a => key a = k := by
  rw [← List.head?_filter, filter_sortByKey, List.head?_filter]

theorem destutter'_sorted (l : List α) (a : α)
    (sorted : (a :: l).Pairwise fun a b => key a ≤ key b) :
    (l.destutter' (fun a b => key a ≠ key b) a).Pairwise fun a b => key a < key b := by
  induction l generalizing a with
  | nil => exact List.pairwise_singleton _ _
  | cons b l ih =>
      obtain ⟨least, rest⟩ := List.pairwise_cons.mp sorted
      by_cases run : key a = key b
      · rw [List.destutter'_cons_neg _ (not_not.mpr run)]
        exact ih a (List.pairwise_cons.mpr
          ⟨fun c inL => least c (List.mem_cons_of_mem b inL), (List.pairwise_cons.mp rest).2⟩)
      · rw [List.destutter'_cons_pos _ run]
        refine List.pairwise_cons.mpr ⟨fun c kept => ?_, ih b rest⟩
        have before : key a < key b := lt_of_le_of_ne (least b List.mem_cons_self) run
        rcases List.mem_cons.mp ((List.destutter'_sublist _ _ b).subset kept) with rfl | inL
        · exact before
        · exact before.trans_le ((List.pairwise_cons.mp rest).1 c inL)

/-- An element is dropped only behind one with its key. -/
theorem find?_destutter' (l : List α) (a : α) (k : κ) :
    (l.destutter' (fun a b => key a ≠ key b) a).find? (fun a => key a = k) =
      (a :: l).find? fun a => key a = k := by
  induction l generalizing a with
  | nil => rfl
  | cons b l ih =>
      by_cases run : key a = key b
      · rw [List.destutter'_cons_neg _ (not_not.mpr run), ih]
        simp only [List.find?_cons, ← run]
        cases decide (key a = k) <;> rfl
      · rw [List.destutter'_cons_pos _ run, List.find?_cons, List.find?_cons, ih]

/-- **The index has each key once, in order.** -/
theorem index_sorted (l : List α) : (index key l).Pairwise fun a b => key a < key b := by
  have sorted := sortByKey_sorted key l
  rw [index, dedupByKey]
  cases shape : sortByKey key l with
  | nil => exact .nil
  | cons a rest =>
      rw [shape] at sorted
      exact destutter'_sorted key rest a sorted

/-- **The element of a key is the first one that had it.** -/
theorem find?_index (l : List α) (k : κ) :
    (index key l).find? (fun a => key a = k) = l.find? fun a => key a = k := by
  rw [← find?_sortByKey key l, index, dedupByKey]
  cases sortByKey key l with
  | nil => rfl
  | cons a rest => exact find?_destutter' key rest a k

end Order

theorem find?_of_sorted (sorted : xs.Pairwise fun a b => key a < key b) (inXs : a ∈ xs) :
    xs.find? (fun b => key b = key a) = some a := by
  induction xs with
  | nil => cases inXs
  | cons b xs ih =>
      obtain ⟨least, sorted⟩ := List.pairwise_cons.mp sorted
      rcases List.mem_cons.mp inXs with rfl | later
      · exact List.find?_cons_of_pos (decide_eq_true rfl)
      · rw [List.find?_cons, decide_eq_false (least a later).ne]
        exact ih sorted later

/-- The keys of the index are those of the list. -/
theorem exists_mem_index (key : α → κ) {k : κ} : (∃ a ∈ index key l, key a = k) ↔ ∃ a ∈ l, key a = k := by
  have same := congrArg Option.isSome (find?_index key l k)
  rw [Bool.eq_iff_iff, List.find?_isSome, List.find?_isSome] at same
  simpa only [decide_eq_true_eq] using same

/-! ## Binary search -/

/-- What a binary search in `xs` may end with: the place of an element with the key, or,
if there is none, the place where it could be inserted. -/
inductive Found (key : α → κ) (xs : List α) (target : κ) : Except Nat Nat → Prop
  | hit {i : Nat} {a : α} (at_i : xs[i]? = some a) (isTarget : key a = target) :
      Found key xs target (.ok i)
  | miss {i : Nat} (inRange : i ≤ xs.length) (below : ∀ a ∈ xs.take i, key a < target)
      (above : ∀ a ∈ xs.drop i, target < key a) : Found key xs target (.error i)

/-- The place of the predecessor. -/
def predecessor : Except Nat Nat → Option Nat
  | .ok i => some i
  | .error 0 => none
  | .error (i + 1) => some i

/-- `a` has the greatest key that is not above the target. -/
def IsPredecessor (key : α → κ) (xs : List α) (target : κ) (a : α) : Prop :=
  key a ≤ target ∧ ∀ b ∈ xs, key b ≤ target → key b ≤ key a

theorem Found.of_none {r : Except Nat Nat} (found : Found key xs target r)
    (none : predecessor r = none) : ∀ a ∈ xs, target < key a := by
  cases found with
  | hit => cases none
  | @miss i inRange below above =>
      cases i with
      | zero => exact above
      | succ i => cases none

/-- **A binary search ends at the predecessor**, between entries as well as at one. -/
theorem Found.of_some {r : Except Nat Nat} (sorted : xs.Pairwise fun a b => key a < key b)
    (found : Found key xs target r) {i : Nat} (isPlace : predecessor r = some i) :
    ∃ a, xs[i]? = some a ∧ IsPredecessor key xs target a := by
  cases found with
  | @hit j a at_j isTarget =>
      cases isPlace
      exact ⟨a, at_j, isTarget.le, fun b _ below => below.trans isTarget.ge⟩
  | @miss j inRange below above =>
      cases j with
      | zero => cases isPlace
      | succ j =>
          cases isPlace
          have inXs : i < xs.length := inRange
          have parts := List.take_succ_eq_append_getElem inXs
          have last : xs[i] ∈ xs.take (i + 1) := by
            rw [parts]
            exact List.mem_append_right _ List.mem_cons_self
          refine ⟨xs[i], List.getElem?_eq_getElem inXs, (below _ last).le, fun b inList notAbove => ?_⟩
          rw [← List.take_append_drop (i + 1) xs] at inList
          rcases List.mem_append.mp inList with before | behind
          · have ordered := sorted.sublist (List.take_sublist (i + 1) xs)
            rw [parts] at before ordered
            rcases List.mem_append.mp before with earlier | here
            · exact ((List.pairwise_append.mp ordered).2.2 b earlier _ List.mem_cons_self).le
            · rw [List.mem_singleton.mp here]
          · exact absurd (above b behind) notAbove.not_gt

/-- **A search that finds nothing in the index says that every key is above.** -/
theorem Found.of_index_none {r : Except Nat Nat} (found : Found key (index key l) target r)
    (none : predecessor r = none) : ∀ a ∈ l, target < key a := by
  intro a inList
  obtain ⟨b, inIndex, same⟩ := (exists_mem_index key).mpr ⟨a, inList, rfl⟩
  rw [← same]
  exact found.of_none none b inIndex

/-- **A search in the index ends at the predecessor in the list**, the first of those
with its key. -/
theorem Found.of_index_some {r : Except Nat Nat} (found : Found key (index key l) target r)
    {i : Nat} (isPlace : predecessor r = some i) :
    ∃ a, (index key l)[i]? = some a ∧ IsPredecessor key l target a ∧
      l.find? (fun b => key b = key a) = some a := by
  have sorted : (index key l).Pairwise fun a b => key a < key b := index_sorted key l
  obtain ⟨a, at_i, below, greatest⟩ := found.of_some sorted isPlace
  refine ⟨a, at_i, ⟨below, fun b inList notAbove => ?_⟩, ?_⟩
  · obtain ⟨c, inIndex, same⟩ := (exists_mem_index key).mpr ⟨b, inList, rfl⟩
    rw [← same] at notAbove ⊢
    exact greatest c inIndex notAbove
  · rw [← find?_index key l]
    exact find?_of_sorted sorted (List.mem_of_getElem? at_i)

/-- A search from the front. -/
def linearSearch (key : α → κ) (xs : List α) (target : κ) : Except Nat Nat :=
  match xs with
  | [] => .error 0
  | a :: xs =>
      if key a = target then .ok 0
      else if target < key a then .error 0
      else
        match linearSearch key xs target with
        | .ok i => .ok (i + 1)
        | .error i => .error (i + 1)

theorem found_linearSearch (sorted : xs.Pairwise fun a b => key a ≤ key b) (target : κ) :
    Found key xs target (linearSearch key xs target) := by
  induction xs with
  | nil => exact .miss (Nat.le_refl 0) (fun _ inNil => nomatch inNil) fun _ inNil => nomatch inNil
  | cons a xs ih =>
      obtain ⟨least, sorted⟩ := List.pairwise_cons.mp sorted
      rw [linearSearch]
      by_cases isTarget : key a = target
      · rw [if_pos isTarget]
        exact .hit rfl isTarget
      · rw [if_neg isTarget]
        by_cases above : target < key a
        · rw [if_pos above]
          refine .miss (Nat.zero_le _) (fun _ inNil => nomatch inNil) fun b inList => ?_
          rcases List.mem_cons.mp inList with rfl | later
          · exact above
          · exact above.trans_le (least b later)
        · rw [if_neg above]
          have below : key a < target := lt_of_le_of_ne (not_lt.mp above) isTarget
          have rest := ih sorted
          generalize linearSearch key xs target = r at rest ⊢
          cases rest with
          | hit at_i isTarget => exact .hit at_i isTarget
          | miss inRange before behind =>
              refine .miss (Nat.succ_le_succ inRange) (fun b inTake => ?_) behind
              rcases List.mem_cons.mp inTake with rfl | later
              · exact below
              · exact before b later

end SortedIndex
