import ModAlloc.Lib.FirstOccurrence

/-!
# Aggregation by key, with room for so many keys

`aggregate cap events` adds up the weights of a list of events key by key. There is
room for `cap` keys: an event whose key does not fit any more is dropped. The keys
that it keeps are the first `cap` distinct ones (`keys_aggregate`), each with the
sum of all its events (`value_aggregate`), and an injective renaming of the keys
renames the result (`aggregate_map`).
-/

namespace Aggregate

open FirstOccurrence

variable {κ κ' M : Type*} [DecidableEq κ] [DecidableEq κ'] [AddCommMonoid M] {cap : Nat}
  {sites events : List (κ × M)} {e : κ × M}

/-- One more event. -/
def record (cap : Nat) (sites : List (κ × M)) (e : κ × M) : List (κ × M) :=
  if e.1 ∈ sites.map Prod.fst then sites.map fun s => if s.1 = e.1 then (s.1, s.2 + e.2) else s
  else if sites.length < cap then sites ++ [e]
  else sites

def aggregate (cap : Nat) (events : List (κ × M)) : List (κ × M) := events.foldl (record cap) []

/-- The sum of the weights of the events with key `k`. -/
def total (events : List (κ × M)) (k : κ) : M :=
  ((events.filter fun e => e.1 = k).map Prod.snd).sum

theorem aggregate_concat : aggregate cap (events ++ [e]) = record cap (aggregate cap events) e :=
  List.foldl_concat ..

theorem total_concat (k : κ) :
    total (events ++ [e]) k = total events k + if e.1 = k then e.2 else 0 := by
  rw [total, List.filter_append, List.map_append, List.sum_append, total]
  by_cases own : e.1 = k
  · simp only [own, decide_true, List.filter_cons_of_pos, List.filter_nil, List.map_cons,
      List.map_nil, List.sum_cons, List.sum_nil, if_true, add_zero]
  · simp only [own, decide_false, Bool.false_eq_true, not_false_eq_true, List.filter_cons_of_neg,
      List.filter_nil, List.map_nil, List.sum_nil, if_false]

/-! ## The keys -/

theorem keys_record : (record cap sites e).map Prod.fst =
    if e.1 ∈ sites.map Prod.fst then sites.map Prod.fst
    else if sites.length < cap then sites.map Prod.fst ++ [e.1] else sites.map Prod.fst := by
  unfold record
  split
  · rw [List.map_map]
    refine List.map_congr_left fun s _ => ?_
    simp only [Function.comp_apply]
    split <;> rfl
  · split
    · rw [List.map_append, List.map_singleton]
    · rfl

/-- **The first `cap` distinct keys are kept.** -/
theorem keys_aggregate [BEq κ] [LawfulBEq κ] (cap : Nat) (events : List (κ × M)) :
    (aggregate cap events).map Prod.fst = (events.map Prod.fst).eraseDups.take cap := by
  induction events using List.reverseRecOn with
  | nil => simp [aggregate]
  | append_singleton events e ih =>
      have length : (aggregate cap events).length =
          min cap (events.map Prod.fst).eraseDups.length := by
        rw [← List.length_map (f := Prod.fst), ih, List.length_take]
      rw [aggregate_concat, keys_record, ih, length, List.map_append, List.map_singleton,
        eraseDups_concat]
      by_cases old : e.1 ∈ events.map Prod.fst
      · rw [if_pos old]
        split
        · rfl
        · split
          case isFalse.isTrue refused room =>
              -- a key that was refused leaves no room for any other
              rw [List.take_of_length_le (by omega)] at refused
              exact absurd (List.mem_eraseDups.mpr old) refused
          case isFalse.isFalse => rfl
      · rw [if_neg old, if_neg fun kept => old (List.mem_eraseDups.mp (List.mem_of_mem_take kept))]
        split
        · rw [List.take_of_length_le (by omega), List.take_of_length_le]
          rw [List.length_append, List.length_singleton]
          omega
        · rw [List.take_append_of_le_length (by omega)]

theorem nodup_keys (cap : Nat) (events : List (κ × M)) :
    ((aggregate cap events).map Prod.fst).Nodup := by
  rw [keys_aggregate]
  exact (nodup_eraseDups _).sublist (List.take_sublist _ _)

theorem mem_of_mem_keys {k : κ} (kept : k ∈ (aggregate cap events).map Prod.fst) :
    ∃ e ∈ events, e.1 = k := by
  rw [keys_aggregate] at kept
  exact List.mem_map.mp (List.mem_eraseDups.mp (List.mem_of_mem_take kept))

/-- With room left, no event has been dropped. -/
theorem mem_keys_of_length_lt (room : (aggregate cap events).length < cap) (inEvents : e ∈ events) :
    e.1 ∈ (aggregate cap events).map Prod.fst := by
  rw [← List.length_map (f := Prod.fst), keys_aggregate, List.length_take] at room
  rw [keys_aggregate, List.take_of_length_le (by omega)]
  exact List.mem_eraseDups.mpr (List.mem_map_of_mem inEvents)

/-! ## The values -/

/-- **Each key that is kept has the sum of all its events.** -/
theorem value_aggregate {s : κ × M} (inSites : s ∈ aggregate cap events) :
    s.2 = total events s.1 := by
  induction events using List.reverseRecOn generalizing s with
  | nil => cases inSites
  | append_singleton events e ih =>
      rw [aggregate_concat] at inSites
      rw [total_concat]
      unfold record at inSites
      split at inSites
      case isTrue known =>
          obtain ⟨old, inOld, rfl⟩ := List.mem_map.mp inSites
          split
          case isTrue own => rw [if_pos own.symm, ih inOld]
          case isFalse other => rw [if_neg (Ne.symm other), add_zero, ih inOld]
      case isFalse unknown =>
          have other : ∀ old ∈ aggregate cap events, e.1 ≠ old.1 := fun old inOld same =>
            unknown (same ▸ List.mem_map_of_mem inOld)
          split at inSites
          case isTrue room =>
              rcases List.mem_append.mp inSites with inOld | here
              · rw [if_neg (other s inOld), add_zero, ih inOld]
              · obtain rfl := List.mem_singleton.mp here
                have none : total events s.1 = 0 := by
                  rw [total, List.filter_eq_nil_iff.mpr, List.map_nil, List.sum_nil]
                  intro e inEvents
                  rw [decide_eq_true_eq]
                  exact fun same => unknown (same ▸ mem_keys_of_length_lt room inEvents)
                rw [none, if_pos rfl, zero_add]
          case isFalse => rw [if_neg (other s inSites), add_zero, ih inSites]

/-! ## Renaming -/

theorem record_map {f : κ → κ'} (injective : Function.Injective f) :
    record cap (sites.map (Prod.map f id)) (Prod.map f id e) =
      (record cap sites e).map (Prod.map f id) := by
  have keys : (Prod.map f id e).1 ∈ (sites.map (Prod.map f (id : M → M))).map Prod.fst ↔
      e.1 ∈ sites.map Prod.fst := by
    rw [List.map_map, show Prod.fst ∘ Prod.map f (id : M → M) = f ∘ Prod.fst from rfl, ← List.map_map]
    exact List.mem_map_of_injective injective
  unfold record
  simp only [keys, List.length_map]
  split
  · rw [List.map_map, List.map_map]
    refine List.map_congr_left fun s _ => ?_
    simp only [Function.comp_apply, Prod.map_fst, injective.eq_iff]
    split <;> rfl
  · split
    · rw [List.map_append, List.map_singleton]
    · rfl

/-- **An injective renaming of the keys renames the result.** -/
theorem aggregate_map {f : κ → κ'} (injective : Function.Injective f) (cap : Nat)
    (events : List (κ × M)) :
    aggregate cap (events.map (Prod.map f id)) = (aggregate cap events).map (Prod.map f id) := by
  induction events using List.reverseRecOn with
  | nil => rfl
  | append_singleton events e ih =>
      rw [List.map_append, List.map_singleton, aggregate_concat, aggregate_concat, ih,
        record_map injective]

end Aggregate
