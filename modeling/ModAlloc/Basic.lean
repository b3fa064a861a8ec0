import Mathlib

/-!
# Machine words, sums and lists

`u64` is `BitVec 64`: its ring operations are the wrapping operations of the
source, and a sum of words is a sum modulo `2 ^ 64`.
-/

namespace ModAlloc

/-- A Rust `u64`. `usize` is 64 bits wide on the supported targets. -/
abbrev U64 := BitVec 64

/-- A sum of words is the sum of their values modulo `2 ^ 64`. -/
theorem toNat_sum (ws : List U64) : ws.sum.toNat = (ws.map BitVec.toNat).sum % 2 ^ 64 := by
  induction ws with
  | nil => rfl
  | cons w ws ih =>
      rw [List.sum_cons, BitVec.toNat_add, ih, List.map_cons, List.sum_cons, Nat.add_mod_mod]

theorem toNat_intCast (z : ℤ) : (z : U64).toNat = (z % 2 ^ 64).toNat := BitVec.toNat_ofInt z

/-- A sum over the elements that meet a condition. -/
theorem sum_map_ite {α M : Type*} [AddMonoid M] (p : α → Bool) (f : α → M) (l : List α) :
    (l.map fun a => if p a then f a else 0).sum = ((l.filter p).map f).sum := by
  induction l with
  | nil => rfl
  | cons a l ih =>
      cases holds : p a with
      | true =>
          rw [List.filter_cons_of_pos holds, List.map_cons, List.map_cons, List.sum_cons,
            List.sum_cons, ih, holds, if_pos rfl]
      | false =>
          rw [List.filter_cons_of_neg (by simp only [holds, Bool.false_eq_true, not_false_eq_true]),
            List.map_cons, List.sum_cons, ih, holds, if_neg Bool.false_ne_true, zero_add]

theorem sum_map_natCast {α : Type*} (f : α → Nat) (l : List α) :
    (l.map fun a => (f a : ℤ)).sum = ((l.map f).sum : ℕ) := by
  rw [Nat.cast_list_sum, List.map_map]
  rfl

theorem sum_map_prod {α M N : Type*} [AddMonoid M] [AddMonoid N] (f : α → M) (g : α → N)
    (l : List α) : (l.map fun a => (f a, g a)).sum = ((l.map f).sum, (l.map g).sum) := by
  induction l with
  | nil => rfl
  | cons a l ih => rw [List.map_cons, List.sum_cons, ih]; rfl

/-- Sums over the elements of each slot, added up over all slots. -/
theorem sum_slots {α : Type*} (slot : α → Option Nat) (f : α → Nat) {n : Nat} {l : List α}
    (bound : ∀ a ∈ l, ∀ b, slot a = some b → b < n) :
    ∑ b ∈ Finset.range n, ((l.filter fun a => slot a = some b).map f).sum =
      ((l.filter fun a => (slot a).isSome).map f).sum := by
  simp only [← sum_map_ite]
  induction l with
  | nil => exact Finset.sum_const_zero
  | cons a l ih =>
      simp only [List.map_cons, List.sum_cons, Finset.sum_add_distrib]
      rw [ih fun x inRest => bound x (List.mem_cons_of_mem _ inRest)]
      congr 1
      cases own : slot a with
      | none => simp only [reduceCtorEq, decide_false, Bool.false_eq_true, if_false, Option.isSome_none,
          Finset.sum_const_zero]
      | some b =>
          have inRange := Finset.mem_range.mpr (bound a List.mem_cons_self b own)
          simp only [Option.some.injEq, decide_eq_true_eq, Finset.sum_ite_eq, inRange, if_true,
            Option.isSome_some]

/-- A sum over a list, by position. -/
theorem sum_map_range {α : Type*} (f : α → Nat) (l : List α) :
    ((List.range l.length).map fun i => (l[i]?).elim 0 f).sum = (l.map f).sum := by
  induction l with
  | nil => rfl
  | cons a l ih =>
      rw [List.length_cons, List.range_succ_eq_map, List.map_cons, List.sum_cons, List.map_map,
        List.map_cons, List.sum_cons, ← ih]
      rfl

theorem sum_map_filterMap {α β : Type*} (g : α → Option β) (f : β → Nat) (l : List α) :
    ((l.filterMap g).map f).sum = (l.map fun a => (g a).elim 0 f).sum := by
  induction l with
  | nil => rfl
  | cons a l ih =>
      rw [List.map_cons, List.sum_cons, ← ih]
      cases own : g a with
      | none => rw [List.filterMap_cons_none own, Option.elim_none, Nat.zero_add]
      | some b => rw [List.filterMap_cons_some own, List.map_cons, List.sum_cons, Option.elim_some]

/-! ## Lists side by side -/

theorem exists_mem_of_forall₂ {α β : Type*} {R : α → β → Prop} {as : List α} {xs : List β} {x : β}
    (along : List.Forall₂ R as xs) (inXs : x ∈ xs) : ∃ a ∈ as, R a x := by
  induction along with
  | nil => cases inXs
  | @cons a y as xs here _ ih =>
      rcases List.mem_cons.mp inXs with rfl | later
      · exact ⟨a, List.mem_cons_self, here⟩
      · obtain ⟨a', inAs, there⟩ := ih later
        exact ⟨a', List.mem_cons_of_mem _ inAs, there⟩

/-- Elements that stand against a list in order inherit what its order says. -/
theorem pairwise_of_forall₂ {α β : Type*} {R : α → β → Prop} {S : α → α → Prop}
    {T : β → β → Prop} (carry : ∀ a b x y, R a x → R b y → S a b → T x y) {as : List α}
    {xs : List β} (along : List.Forall₂ R as xs) (sorted : as.Pairwise S) : xs.Pairwise T := by
  induction along with
  | nil => exact .nil
  | @cons a x as xs here rest ih =>
      obtain ⟨first, sorted⟩ := List.pairwise_cons.mp sorted
      refine List.pairwise_cons.mpr ⟨fun y inXs => ?_, ih sorted⟩
      obtain ⟨b, inAs, there⟩ := exists_mem_of_forall₂ rest inXs
      exact carry a b x y here there (first b inAs)

end ModAlloc
