import ModAlloc.Lib.Interleaving

/-!
# High-water marks

A shared memory has a level and a mark, and processes that raise the level do so
in one step and raise the mark in a later one: in between, a process has announced
the level that it brought about. However such steps interleave, once nothing is
announced any more the mark is the highest level of any state on the way
(`HighWater.isGreatest`).
-/

namespace Interleaving.Program

universe u v w x

variable {σ : Type u} {π : Type v} {ι : Type w} {α : Type x} {N : Type*} [LinearOrder N]
  {P : Program σ π ι α} {ok : Pool σ π → Move ι α → Prop} {s₀ s s' s₁ : Pool σ π}
  {ms : List (Move ι α)} {m : Move ι α}

/-- The execution from `s₀` to `s` by the moves `ms` passes through `s₁`. -/
def Visited (P : Program σ π ι α) (ok : Pool σ π → Move ι α → Prop) (s₀ : Pool σ π)
    (ms : List (Move ι α)) (s s₁ : Pool σ π) : Prop :=
  ∃ before after, ms = before ++ after ∧ P.Exec ok s₀ before s₁ ∧ P.Exec ok s₁ after s

theorem Visited.last (run : P.Exec ok s₀ ms s) : Visited P ok s₀ ms s s :=
  ⟨ms, [], (List.append_nil ms).symm, run, .nil s⟩

theorem Visited.snoc (visited : Visited P ok s₀ ms s s₁) (cond : ok s m)
    (stepped : P.step s m = some s') : Visited P ok s₀ (ms ++ [m]) s' s₁ := by
  obtain ⟨before, after, rfl, left, right⟩ := visited
  exact ⟨before, after ++ [m], List.append_assoc .., left, right.snoc cond stepped⟩

/-- What is known of every state on the way is known at both ends of every move. -/
theorem Exec.annotate {A : Pool σ π → Prop} (run : P.Exec ok s₀ ms s)
    (known : ∀ s₁, Visited P ok s₀ ms s s₁ → A s₁) :
    P.Exec (fun s m => A s ∧ ∀ s', P.step s m = some s' → A s') s₀ ms s := by
  induction run with
  | nil s => exact .nil s
  | @cons s₀ s₁ s m ms cond stepped rest ih =>
      refine .cons ⟨known s₀ ⟨[], m :: ms, rfl, .nil s₀, .cons cond stepped rest⟩, ?_⟩ stepped ?_
      · intro s' stepped'
        obtain rfl : s₁ = s' := Option.some.inj (stepped.symm.trans stepped')
        exact known s₁ ⟨[m], ms, rfl, .cons cond stepped (.nil s₁), rest⟩
      · refine ih fun s₂ visited => ?_
        obtain ⟨before, after, rfl, left, right⟩ := visited
        exact known s₂ ⟨m :: before, after, rfl, .cons cond stepped left, right⟩

/-- How the steps treat a level, its mark, and the level that a process has
announced. -/
structure HighWater (P : Program σ π ι α) (A : Pool σ π → Prop) (level mark : σ → N)
    (announced : π → Option N) : Prop where
  /-- a start announces nothing and leaves level and mark alone -/
  start : ∀ {m i x m' p}, P.start m i x = some (m', p) →
    level m' = level m ∧ mark m' = mark m ∧ announced p = none
  /-- a level that is not lower than before is announced -/
  announces : ∀ {s : Pool σ π} {i p a m' p'}, A s → A ⟨m', s.procs.set i p'⟩ →
    s.procs[i]? = some p → P.act s.shared i p a = some (m', p') →
    level m' ≤ level s.shared ∨ announced p' = some (level m')
  /-- the mark is raised to what was announced -/
  raises : ∀ {s : Pool σ π} {i p a m' p' v}, A s → s.procs[i]? = some p →
    P.act s.shared i p a = some (m', p') → announced p = some v → v ≤ mark m'
  /-- the mark does not sink -/
  grows : ∀ {s : Pool σ π} {i p a m' p'}, A s → s.procs[i]? = some p →
    P.act s.shared i p a = some (m', p') → mark s.shared ≤ mark m'
  /-- the mark is raised to nothing else -/
  only : ∀ {s : Pool σ π} {i p a m' p'}, A s → s.procs[i]? = some p →
    P.act s.shared i p a = some (m', p') →
    mark m' = mark s.shared ∨ announced p = some (mark m')
  /-- only the level just brought about is announced -/
  fresh : ∀ {s : Pool σ π} {i p a m' p' v}, A s → s.procs[i]? = some p →
    P.act s.shared i p a = some (m', p') → announced p' = some v → v = level m'

namespace HighWater

variable {A : Pool σ π → Prop} {level mark : σ → N} {announced : π → Option N}

/-- The mark has reached `v`, or some process has announced as much. -/
def Covered (mark : σ → N) (announced : π → Option N) (v : N) (s : Pool σ π) : Prop :=
  v ≤ mark s.shared ∨ ∃ (i : Nat) (p : π) (u : N),
    s.procs[i]? = some p ∧ announced p = some u ∧ v ≤ u

variable (h : HighWater P A level mark announced)

include h

/-- The same holds of fewer states. -/
theorem mono {A' : Pool σ π → Prop} (fewer : ∀ {s}, A' s → A s) :
    HighWater P A' level mark announced where
  start := h.start
  announces before after := h.announces (fewer before) (fewer after)
  raises known := h.raises (fewer known)
  grows known := h.grows (fewer known)
  only known := h.only (fewer known)
  fresh known := h.fresh (fewer known)

theorem covered_step {v : N} (known : A s ∧ ∀ s', P.step s m = some s' → A s')
    (stepped : P.step s m = some s') (covered : Covered mark announced v s) :
    Covered mark announced v s' := by
  cases m with
  | start x =>
      obtain ⟨m', p, started, rfl⟩ := step_start stepped
      obtain ⟨_, sameMark, _⟩ := h.start started
      rcases covered with marked | ⟨i, q, u, at_i, announced, le⟩
      · exact .inl (sameMark ▸ marked)
      · refine .inr ⟨i, q, u, ?_, announced, le⟩
        rw [List.getElem?_append_left (List.getElem?_eq_some_iff.mp at_i).1, at_i]
  | act i a =>
      obtain ⟨p, m', p', at_i, acted, rfl⟩ := step_act stepped
      rcases covered with marked | ⟨j, q, u, at_j, announced, le⟩
      · exact .inl (marked.trans (h.grows known.1 at_i acted))
      · by_cases same : i = j
        · subst same
          obtain rfl : p = q := Option.some.inj (at_i.symm.trans at_j)
          exact .inl (le.trans (h.raises known.1 at_i acted announced))
        · exact .inr ⟨j, q, u, by rw [List.getElem?_set_ne same, at_j], announced, le⟩

theorem covered_level (known : A s ∧ ∀ s', P.step s m = some s' → A s')
    (stepped : P.step s m = some s') (covered : Covered mark announced (level s.shared) s) :
    Covered mark announced (level s'.shared) s' := by
  have before := h.covered_step known stepped covered
  cases m with
  | start x =>
      obtain ⟨m', p, started, rfl⟩ := step_start stepped
      rwa [(h.start started).1]
  | act i a =>
      obtain ⟨p, m', p', at_i, acted, rfl⟩ := step_act stepped
      rcases h.announces known.1 (known.2 _ stepped) at_i acted with lower | announced
      · rcases before with marked | ⟨j, q, u, at_j, announced, le⟩
        · exact .inl (lower.trans marked)
        · exact .inr ⟨j, q, u, at_j, announced, lower.trans le⟩
      · exact .inr ⟨i, p', _, List.getElem?_set_self (List.getElem?_eq_some_iff.mp at_i).1,
          announced, le_rfl⟩

/-- No state on the way has a level above the mark and what is announced. -/
theorem covered_of_visited (run : P.Exec ok s₀ ms s)
    (known : ∀ s₁, Visited P ok s₀ ms s s₁ → A s₁) (base : level s₀.shared ≤ mark s₀.shared)
    (visited : Visited P ok s₀ ms s s₁) : Covered mark announced (level s₁.shared) s := by
  obtain ⟨before, after, rfl, left, right⟩ := visited
  have upTo : Covered mark announced (level s₁.shared) s₁ := by
    refine Exec.invariant (fun s => Covered mark announced (level s.shared) s)
      (fun s m s' covered cond stepped => h.covered_level cond stepped covered)
      (left.annotate fun s₂ ⟨b, a, eq, l, r⟩ => known s₂ ⟨b, a ++ after, ?_, l, r.append right⟩)
      (.inl base)
    rw [eq, List.append_assoc]
  refine Exec.invariant (Covered mark announced (level s₁.shared))
    (fun s m s' covered cond stepped => h.covered_step cond stepped covered)
    (right.annotate fun s₂ ⟨b, a, eq, l, r⟩ => known s₂ ⟨before ++ b, a, ?_, left.append l, r⟩) upTo
  rw [eq, List.append_assoc]

/-- Where what is announced stands in a relation to the state in which it is, the
mark stands in it to a state on the way. -/
theorem related_of_mark {R : N → Pool σ π → Prop} (run : P.Exec ok s₀ ms s)
    (known : ∀ s₁, Visited P ok s₀ ms s s₁ → A s₁) (base : R (mark s₀.shared) s₀)
    (fresh : s₀.procs = [])
    (announce : ∀ {s s' : Pool σ π} {i p a p' v}, A s → A s' → ok s (.act i a) →
      P.step s (.act i a) = some s' → s.procs[i]? = some p →
      P.act s.shared i p a = some (s'.shared, p') → announced p' = some v → R v s') :
    (∃ s₁, Visited P ok s₀ ms s s₁ ∧ R (mark s.shared) s₁) ∧
      ∀ (i : Nat) (p : π) (v : N), s.procs[i]? = some p → announced p = some v →
        ∃ s₁, Visited P ok s₀ ms s s₁ ∧ R v s₁ := by
  refine Exec.snocInduction (motive := fun ms s => (∀ s₁, Visited P ok s₀ ms s s₁ → A s₁) →
    (∃ s₁, Visited P ok s₀ ms s s₁ ∧ R (mark s.shared) s₁) ∧
      ∀ (i : Nat) (p : π) (v : N), s.procs[i]? = some p → announced p = some v →
        ∃ s₁, Visited P ok s₀ ms s s₁ ∧ R v s₁) ?_ ?_ run known
  · intro _
    refine ⟨⟨s₀, .last (.nil s₀), base⟩, fun i p v at_i => ?_⟩
    rw [fresh] at at_i
    cases at_i
  · intro ms s m s' run cond stepped ih known
    have later : ∀ {s₁}, Visited P ok s₀ ms s s₁ → Visited P ok s₀ (ms ++ [m]) s' s₁ :=
      fun visited => visited.snoc cond stepped
    have here : Visited P ok s₀ (ms ++ [m]) s' s' := .last (run.snoc cond stepped)
    have holds : A s := known s (later (.last run))
    obtain ⟨⟨s₁, visited, mark₁⟩, pending⟩ := ih fun s₁ visited => known s₁ (later visited)
    have pending' : ∀ {i : Nat} {p : π} {v : N}, s.procs[i]? = some p → announced p = some v →
        ∃ s₁, Visited P ok s₀ (ms ++ [m]) s' s₁ ∧ R v s₁ := by
      intro i p v at_i announced
      obtain ⟨s₂, visited, related⟩ := pending i p v at_i announced
      exact ⟨s₂, later visited, related⟩
    refine ⟨?_, fun i p v at_i announced => ?_⟩
    · cases m with
      | start x =>
          obtain ⟨m', p, started, rfl⟩ := step_start stepped
          exact ⟨s₁, later visited, (h.start started).2.1.symm ▸ mark₁⟩
      | act i a =>
          obtain ⟨p, m', p', at_i, acted, rfl⟩ := step_act stepped
          rcases h.only holds at_i acted with same | announced
          · exact ⟨s₁, later visited, same.symm ▸ mark₁⟩
          · exact pending' at_i announced
    · rcases step_procs stepped at_i with old | ⟨_, x, rfl, started⟩ | ⟨a, p₀, rfl, at_i₀, acted⟩
      · exact pending' old announced
      · rw [(h.start started).2.2] at announced
        cases announced
      · exact ⟨s', here, announce holds (known s' here) cond stepped at_i₀ acted announced⟩

/-- **The mark is the highest level on the way.** -/
theorem isGreatest (run : P.Exec ok s₀ ms s) (known : ∀ s₁, Visited P ok s₀ ms s s₁ → A s₁)
    (base : level s₀.shared = mark s₀.shared) (fresh : s₀.procs = [])
    (settled : ∀ p ∈ s.procs, announced p = none) :
    IsGreatest {v | ∃ s₁, Visited P ok s₀ ms s s₁ ∧ level s₁.shared = v} (mark s.shared) := by
  have own := h.related_of_mark (R := fun v s₁ => level s₁.shared = v) run known base fresh
    fun holds _ _ _ at_i acted announced => (h.fresh holds at_i acted announced).symm
  refine ⟨own.1, ?_⟩
  rintro _ ⟨s₁, visited, rfl⟩
  rcases h.covered_of_visited run known base.le visited with marked | ⟨i, p, u, at_i, announced, _⟩
  · exact marked
  · rw [settled p (List.mem_of_getElem? at_i)] at announced
    cases announced

end HighWater

/-! ## Part of the way -/

/-- An execution in two parts passes through the states of either part. -/
theorem visited_append {ms' : List (Move ι α)} {t : Pool σ π} (left : P.Exec ok s₀ ms s)
    (right : P.Exec ok s ms' s') :
    Visited P ok s₀ (ms ++ ms') s' t ↔ Visited P ok s₀ ms s t ∨ Visited P ok s ms' s' t := by
  constructor
  · rintro ⟨before, after, parts, upTo, onward⟩
    rcases List.append_eq_append_iff.mp parts with ⟨rest, rfl, rfl⟩ | ⟨rest, rfl, rfl⟩
    · obtain ⟨s₁, left', right'⟩ := upTo.split
      obtain rfl := left.unique left'
      exact .inr ⟨rest, after, rfl, right', onward⟩
    · obtain ⟨s₁, left', right'⟩ := onward.split
      obtain rfl := left.unique (upTo.append left')
      exact .inl ⟨before, rest, rfl, upTo, left'⟩
  · rintro (⟨before, after, rfl, upTo, onward⟩ | ⟨before, after, rfl, upTo, onward⟩)
    · exact ⟨before, after ++ ms', List.append_assoc .., upTo, onward.append right⟩
    · exact ⟨ms ++ before, after, (List.append_assoc ..).symm, left.append upTo, onward⟩

/-- The levels on the way from `s₀` to `s`. -/
def levels (P : Program σ π ι α) (ok : Pool σ π → Move ι α → Prop) (level : σ → N) (s₀ : Pool σ π)
    (ms : List (Move ι α)) (s : Pool σ π) : Set N :=
  {v | ∃ t, Visited P ok s₀ ms s t ∧ level t.shared = v}

/-- The highest level of an execution is that of its second part exactly when the
second part comes up to every level of the first. -/
theorem isGreatest_second_iff {ms' : List (Move ι α)} {level : σ → N} {top : N}
    (left : P.Exec ok s₀ ms s) (right : P.Exec ok s ms' s')
    (highest : IsGreatest (levels P ok level s₀ (ms ++ ms') s') top) :
    IsGreatest (levels P ok level s ms' s') top ↔
      ∀ v ∈ levels P ok level s₀ ms s, ∃ v' ∈ levels P ok level s ms' s', v ≤ v' := by
  have parts : ∀ {v}, v ∈ levels P ok level s₀ (ms ++ ms') s' ↔
      v ∈ levels P ok level s₀ ms s ∨ v ∈ levels P ok level s ms' s' := by
    intro v
    simp only [levels, Set.mem_ofPred_eq, visited_append left right, or_and_right, exists_or]
  obtain ⟨reached, upper⟩ := highest
  constructor
  · rintro ⟨inSecond, _⟩ v inFirst
    exact ⟨top, inSecond, upper (parts.mpr (.inl inFirst))⟩
  · intro covered
    refine ⟨?_, fun v inSecond => upper (parts.mpr (.inr inSecond))⟩
    rcases parts.mp reached with inFirst | inSecond
    · obtain ⟨v', inSecond, le⟩ := covered top inFirst
      rwa [le_antisymm le (upper (parts.mpr (.inr inSecond)))]
    · exact inSecond

end Interleaving.Program
