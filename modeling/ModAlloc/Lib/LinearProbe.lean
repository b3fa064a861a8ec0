import Mathlib

/-!
# Linear probing

A table of `n` slots, each free or holding a key (`keys : Nat → Option κ`). A
key is looked for from its home slot on, one slot after the other and around
the end of the table. `Placed` is the invariant that makes the search sound:
the slots between a key's home and the key hold other keys. It gives that a key
is held once (`Placed.unique`) and that a search which meets a free slot has
seen every place the key can be in (`Placed.absent`); taking that free slot
keeps it (`Placed.insert`).
-/

namespace LinearProbe

variable {κ : Type*} {n home k j a b : Nat}

/-- The slot `k` places after slot `home`. -/
def slot (n home k : Nat) : Nat := (home + k) % n

theorem slot_lt (pos : 0 < n) : slot n home k < n := Nat.mod_lt _ pos

theorem slot_succ : (slot n home k + 1) % n = slot n home (k + 1) := by
  rw [slot, slot, Nat.mod_add_mod, Nat.add_assoc]

/-- The probe sequence does not repeat a slot in its first `n` places. -/
theorem slot_inj (hj : j < n) (hk : k < n) (same : slot n home j = slot n home k) : j = k := by
  have congruent : j ≡ k [MOD n] := Nat.ModEq.add_left_cancel' home same
  rwa [Nat.ModEq, Nat.mod_eq_of_lt hj, Nat.mod_eq_of_lt hk] at congruent

/-- The probe sequence is back where it began after `n` places, not before. -/
theorem slot_succ_eq_zero_iff (hk : k < n) : slot n home (k + 1) = slot n home 0 ↔ k + 1 = n := by
  constructor
  · intro same
    by_contra early
    have := slot_inj (by omega : k + 1 < n) (by omega) same
    omega
  · rintro rfl
    simp only [slot, Nat.add_mod_right, Nat.add_zero]

/-- The probe sequence reaches every slot, from any home. -/
theorem exists_slot (home : Nat) (hb : b < n) : ∃ k, k < n ∧ slot n home k = b := by
  have homeLt : home % n < n := Nat.mod_lt _ (by omega)
  rcases Nat.lt_or_ge b (home % n) with before | after
  · refine ⟨n - home % n + b, by omega, ?_⟩
    rw [slot, ← Nat.mod_add_mod, show home % n + (n - home % n + b) = b + n by omega,
      Nat.add_mod_right, Nat.mod_eq_of_lt hb]
  · refine ⟨b - home % n, by omega, ?_⟩
    rw [slot, ← Nat.mod_add_mod, show home % n + (b - home % n) = b by omega,
      Nat.mod_eq_of_lt hb]

/-! ## Searching -/

variable {keys keys' : Nat → Option κ} {key : κ} {homeOf : κ → Nat}

/-- The first `k` slots of the search for `key` hold other keys. -/
def Passed (n : Nat) (keys : Nat → Option κ) (home : Nat) (key : κ) (k : Nat) : Prop :=
  ∀ j, j < k → ∃ other, keys (slot n home j) = some other ∧ other ≠ key

theorem Passed.zero : Passed n keys home key 0 := fun _ h => absurd h (Nat.not_lt_zero _)

theorem Passed.succ {other : κ} (passed : Passed n keys home key k)
    (held : keys (slot n home k) = some other) (different : other ≠ key) :
    Passed n keys home key (k + 1) := by
  intro j hj
  rcases Nat.lt_succ_iff_lt_or_eq.mp hj with earlier | rfl
  · exact passed j earlier
  · exact ⟨other, held, different⟩

/-- Slots that were passed stay passed while held keys stay in place. -/
theorem Passed.mono (passed : Passed n keys home key k)
    (kept : ∀ b other, keys b = some other → keys' b = some other) :
    Passed n keys' home key k := by
  intro j hj
  obtain ⟨other, held, different⟩ := passed j hj
  exact ⟨other, kept _ _ held, different⟩

/-- A search that has passed all `n` slots has seen a full table without the key. -/
theorem Passed.full (passed : Passed n keys home key n) (hb : b < n) :
    ∃ other, keys b = some other ∧ other ≠ key := by
  obtain ⟨j, hj, rfl⟩ := exists_slot home hb
  exact passed j hj

/-- Every key held is reached from its home through slots that hold other keys. -/
def Placed (n : Nat) (homeOf : κ → Nat) (keys : Nat → Option κ) : Prop :=
  ∀ b, b < n → ∀ key, keys b = some key →
    ∃ k, k < n ∧ slot n (homeOf key) k = b ∧ Passed n keys (homeOf key) key k

theorem Placed.of_free (free : ∀ b, keys b = none) : Placed n homeOf keys := by
  intro b _ key held
  rw [free] at held
  cases held

/-- No two slots hold the same key. -/
theorem Placed.unique (placed : Placed n homeOf keys) (ha : a < n) (hb : b < n)
    (at_a : keys a = some key) (at_b : keys b = some key) : a = b := by
  obtain ⟨j, _, slot_j, passed_j⟩ := placed a ha key at_a
  obtain ⟨k, _, slot_k, passed_k⟩ := placed b hb key at_b
  rcases Nat.lt_trichotomy j k with before | rfl | after
  · obtain ⟨other, held, different⟩ := passed_k j before
    rw [slot_j, at_a] at held
    exact absurd (Option.some.inj held).symm different
  · rw [← slot_j, slot_k]
  · obtain ⟨other, held, different⟩ := passed_j k after
    rw [slot_k, at_b] at held
    exact absurd (Option.some.inj held).symm different

/-- A search that meets a free slot after passing all slots before it proves the
key absent. -/
theorem Placed.absent (placed : Placed n homeOf keys) (hk : k < n)
    (passed : Passed n keys (homeOf key) key k) (free : keys (slot n (homeOf key) k) = none)
    (hb : b < n) : keys b ≠ some key := by
  intro held
  obtain ⟨j, hj, slot_j, passed_j⟩ := placed b hb key held
  rcases Nat.lt_trichotomy j k with before | rfl | after
  · obtain ⟨other, there, different⟩ := passed j before
    rw [slot_j, held] at there
    exact different (Option.some.inj there).symm
  · rw [slot_j, held] at free
    cases free
  · obtain ⟨other, there, _⟩ := passed_j k after
    rw [free] at there
    cases there

/-- Taking the free slot at which the search for a key ends keeps all keys placed. -/
theorem Placed.insert (placed : Placed n homeOf keys) (hk : k < n)
    (passed : Passed n keys (homeOf key) key k)
    (free : keys (slot n (homeOf key) k) = none) :
    Placed n homeOf (Function.update keys (slot n (homeOf key) k) (some key)) := by
  have kept : ∀ b other, keys b = some other →
      Function.update keys (slot n (homeOf key) k) (some key) b = some other := by
    intro b other held
    have elsewhere : b ≠ slot n (homeOf key) k := by
      rintro rfl
      rw [free] at held
      cases held
    rw [Function.update_of_ne elsewhere, held]
  intro b hb key' held
  by_cases here : b = slot n (homeOf key) k
  · subst here
    rw [Function.update_self] at held
    obtain rfl := Option.some.inj held
    exact ⟨k, hk, rfl, passed.mono kept⟩
  · rw [Function.update_of_ne here] at held
    obtain ⟨j, hj, slot_j, passed_j⟩ := placed b hb key' held
    exact ⟨j, hj, slot_j, passed_j.mono kept⟩

end LinearProbe
