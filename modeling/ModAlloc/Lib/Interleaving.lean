import Mathlib

/-!
# Interleaved processes over shared memory

A `Pool` is a shared memory and the local states of the processes started so
far; a `Program` says how a process is started and what one atomic step of it
does. `Program.step` moves the pool by one `Move`, and `Program.Exec` chains
moves in any order, each of them meeting a condition `ok`. A process keeps its
index, so a pool is also the history of the processes that have come to an end.

* `Exec.invariant`: what one move preserves, a whole execution preserves.
* `Exec.interference`: the rule for local assertions. An assertion about each
  process that its own step establishes, and that no step of another process
  destroys, holds of every process in every state.
* `Exec.account`: a quantity of the shared memory that every step moves by as
  much as the stepping process's own contribution is the sum of all
  contributions.
* `Exec.sum_le`: contributions that no step lowers add up to more and more.
* `Exec.acts_le_progress`: the steps of one process are bounded by its progress, and by
  any measure that its own steps raise and the others do not lower (`Exec.acts_le_measure`).
-/

namespace Interleaving

universe u v w x

variable {σ : Type u} {π : Type v} {ι : Type w} {α : Type x}

/-- The shared memory and the processes started so far, in order of start. -/
structure Pool (σ : Type u) (π : Type v) where
  shared : σ
  procs : List π

/-- How a process starts with an argument in `ι`, and its atomic steps; an
answer in `α` is what the environment contributes to a step. Both are told the
index of the process. -/
structure Program (σ : Type u) (π : Type v) (ι : Type w) (α : Type x) where
  start : σ → Nat → ι → Option (σ × π)
  act : σ → Nat → π → α → Option (σ × π)

/-- A scheduler's choice: a new process, or one step of process `index`. -/
inductive Move (ι : Type w) (α : Type x) where
  | start (arg : ι)
  | act (index : Nat) (answer : α)

/-- The move is a step of process `i`. -/
def Move.isActOf (i : Nat) : Move ι α → Bool
  | .start _ => false
  | .act j _ => i == j

namespace Program

variable (P : Program σ π ι α)

/-- One move of the pool; `none` where the move is not possible. -/
def step (s : Pool σ π) : Move ι α → Option (Pool σ π)
  | .start x =>
      (P.start s.shared s.procs.length x).map fun r => ⟨r.1, s.procs ++ [r.2]⟩
  | .act i a =>
      s.procs[i]?.bind fun p =>
        (P.act s.shared i p a).map fun r => ⟨r.1, s.procs.set i r.2⟩

/-- `Exec ok s moves s'`: the moves lead from `s` to `s'`, and each meets `ok` in
the state it is made in. -/
inductive Exec (ok : Pool σ π → Move ι α → Prop) :
    Pool σ π → List (Move ι α) → Pool σ π → Prop
  | nil (s : Pool σ π) : Exec ok s [] s
  | cons {s s' s'' : Pool σ π} {m : Move ι α} {ms : List (Move ι α)} :
    ok s m → P.step s m = some s' → Exec ok s' ms s'' → Exec ok s (m :: ms) s''

/-- No condition on the moves. -/
def anyMove : Pool σ π → Move ι α → Prop := fun _ _ => True

instance (s : Pool σ π) (m : Move ι α) : Decidable (anyMove s m) := inferInstanceAs (Decidable True)

variable {P}

theorem step_start {s s' : Pool σ π} {x : ι} (h : P.step s (.start x) = some s') :
    ∃ m p, P.start s.shared s.procs.length x = some (m, p) ∧ s' = ⟨m, s.procs ++ [p]⟩ := by
  obtain ⟨⟨m, p⟩, started, rfl⟩ := Option.map_eq_some_iff.mp h
  exact ⟨m, p, started, rfl⟩

theorem step_act {s s' : Pool σ π} {i : Nat} {a : α} (h : P.step s (.act i a) = some s') :
    ∃ p m p', s.procs[i]? = some p ∧ P.act s.shared i p a = some (m, p') ∧
      s' = ⟨m, s.procs.set i p'⟩ := by
  obtain ⟨p, atIndex, rest⟩ := Option.bind_eq_some_iff.mp h
  obtain ⟨⟨m, p'⟩, acted, rfl⟩ := Option.map_eq_some_iff.mp rest
  exact ⟨p, m, p', atIndex, acted, rfl⟩

theorem step_act_eq {s : Pool σ π} {i : Nat} {a : α} {p p' : π} {m : σ}
    (atIndex : s.procs[i]? = some p) (acted : P.act s.shared i p a = some (m, p')) :
    P.step s (.act i a) = some ⟨m, s.procs.set i p'⟩ := by
  simp only [step, atIndex, Option.bind_some, acted, Option.map_some]

/-! ## Executions -/

variable {ok : Pool σ π → Move ι α → Prop}

theorem Exec.append {s s' s'' : Pool σ π} {ms ms' : List (Move ι α)}
    (left : P.Exec ok s ms s') (right : P.Exec ok s' ms' s'') :
    P.Exec ok s (ms ++ ms') s'' := by
  induction left with
  | nil => exact right
  | cons cond stepped _ ih => exact .cons cond stepped (ih right)

theorem Exec.snoc {s s' s'' : Pool σ π} {ms : List (Move ι α)} {m : Move ι α}
    (run : P.Exec ok s ms s') (cond : ok s' m) (stepped : P.step s' m = some s'') :
    P.Exec ok s (ms ++ [m]) s'' :=
  run.append (.cons cond stepped (.nil s''))

theorem Exec.mono {ok' : Pool σ π → Move ι α → Prop} {s s' : Pool σ π}
    {ms : List (Move ι α)} (weaker : ∀ s m, ok s m → ok' s m) (run : P.Exec ok s ms s') :
    P.Exec ok' s ms s' := by
  induction run with
  | nil s => exact .nil s
  | cons cond stepped _ ih => exact .cons (weaker _ _ cond) stepped ih

/-- Moves lead to one state only. -/
theorem Exec.unique {s s₁ s₂ : Pool σ π} {ms : List (Move ι α)} (left : P.Exec ok s ms s₁)
    (right : P.Exec ok s ms s₂) : s₁ = s₂ := by
  induction left with
  | nil s =>
      cases right
      rfl
  | cons _ stepped _ ih =>
      cases right with
      | cons _ stepped' rest =>
          obtain rfl := Option.some.inj (stepped.symm.trans stepped')
          exact ih rest

theorem Exec.split {s s' : Pool σ π} {ms ms' : List (Move ι α)} (run : P.Exec ok s (ms ++ ms') s') :
    ∃ t, P.Exec ok s ms t ∧ P.Exec ok t ms' s' := by
  induction ms generalizing s with
  | nil => exact ⟨s, .nil s, run⟩
  | cons m ms ih =>
      cases run with
      | cons cond stepped rest =>
          obtain ⟨t, left, right⟩ := ih rest
          exact ⟨t, .cons cond stepped left, right⟩

/-- Induction over an execution from its end. -/
theorem Exec.snocInduction {s : Pool σ π} {motive : List (Move ι α) → Pool σ π → Prop}
    (nil : motive [] s)
    (snoc : ∀ ms s' m s'', P.Exec ok s ms s' → ok s' m → P.step s' m = some s'' →
      motive ms s' → motive (ms ++ [m]) s'')
    {ms : List (Move ι α)} {s' : Pool σ π} (run : P.Exec ok s ms s') : motive ms s' := by
  have extend : ∀ {t ms t'}, P.Exec ok t ms t' → ∀ before, P.Exec ok s before t →
      motive before t → motive (before ++ ms) t' := by
    intro t ms t' rest
    induction rest with
    | nil t =>
        intro before _ reached
        simpa only [List.append_nil] using reached
    | @cons t t₁ t₂ m ms cond stepped _ ih =>
        intro before sofar reached
        have next := ih (before ++ [m]) (sofar.snoc cond stepped)
          (snoc before t m t₁ sofar cond stepped reached)
        simpa only [List.append_assoc, List.singleton_append] using next
  simpa only [List.nil_append] using extend run [] (.nil s) nil

/-- What one move preserves, an execution preserves. -/
theorem Exec.invariant (Inv : Pool σ π → Prop)
    (preserved : ∀ s m s', Inv s → ok s m → P.step s m = some s' → Inv s')
    {s s' : Pool σ π} {ms : List (Move ι α)} (run : P.Exec ok s ms s') (base : Inv s) :
    Inv s' := by
  induction run with
  | nil => exact base
  | cons cond stepped _ ih => exact ih (preserved _ _ _ base cond stepped)

/-- A relation between memories that every step respects holds between the ends. -/
theorem Exec.sharedRel {R : σ → σ → Prop} (refl : ∀ m, R m m)
    (trans : ∀ {a b c}, R a b → R b c → R a c)
    (start : ∀ {m i x m' p}, P.start m i x = some (m', p) → R m m')
    (act : ∀ {m i p a m' p'}, P.act m i p a = some (m', p') → R m m')
    {s s' : Pool σ π} {ms : List (Move ι α)} (run : P.Exec ok s ms s') :
    R s.shared s'.shared := by
  induction run with
  | nil => exact refl _
  | @cons s s₁ s₂ m ms _ stepped _ ih =>
      refine trans ?_ ih
      cases m with
      | start x =>
          obtain ⟨m, p, started, rfl⟩ := step_start stepped
          exact start started
      | act i a =>
          obtain ⟨p, m, p', _, acted, rfl⟩ := step_act stepped
          exact act acted

/-- The pool after a list of moves; `none` where a move is not possible or does
not meet the condition. -/
def run (P : Program σ π ι α) (ok : Pool σ π → Move ι α → Prop) [∀ s m, Decidable (ok s m)]
    (s : Pool σ π) : List (Move ι α) → Option (Pool σ π)
  | [] => some s
  | m :: ms => if ok s m then (P.step s m).bind fun s' => P.run ok s' ms else none

theorem Exec.of_run [∀ s m, Decidable (ok s m)] {s s' : Pool σ π} {ms : List (Move ι α)}
    (ran : P.run ok s ms = some s') : P.Exec ok s ms s' := by
  induction ms generalizing s with
  | nil => exact Option.some.inj ran ▸ .nil s
  | cons m ms ih =>
      rw [run] at ran
      split at ran
      · obtain ⟨s₁, stepped, rest⟩ := Option.bind_eq_some_iff.mp ran
        exact .cons ‹_› stepped (ih rest)
      · cases ran

/-- The states that moves lead through. -/
def trail (P : Program σ π ι α) (s : Pool σ π) : List (Move ι α) → List (Pool σ π)
  | [] => [s]
  | m :: ms => s :: (P.step s m).elim [] fun s' => P.trail s' ms

theorem Exec.mem_trail {s t s' : Pool σ π} {ms ms' : List (Move ι α)} (left : P.Exec ok s ms t)
    (right : P.Exec ok t ms' s') : t ∈ P.trail s (ms ++ ms') := by
  induction left with
  | nil s =>
      cases ms' with
      | nil => exact List.mem_cons_self
      | cons m ms => exact List.mem_cons_self
  | cons _ stepped _ ih =>
      rw [List.cons_append, trail, stepped]
      exact List.mem_cons_of_mem _ (ih right)

/-! ## Local assertions -/

theorem mem_procs_iff {ps : List π} {p : π} : p ∈ ps ↔ ∃ i : Nat, ps[i]? = some p :=
  List.mem_iff_getElem?

/-- Every process of the pool satisfies `I` against the shared memory. -/
def Everywhere (I : σ → π → Prop) (s : Pool σ π) : Prop :=
  ∀ (i : Nat) (p : π), s.procs[i]? = some p → I s.shared p

/-- What a move must do for a shared assertion `G` and local assertions `I` to
stay true, in states that satisfy the already known `A`: its own process keeps
them, and the other processes are not disturbed. -/
structure Undisturbed (P : Program σ π ι α) (ok : Pool σ π → Move ι α → Prop)
    (A : Pool σ π → Prop) (G : σ → Prop) (I : σ → π → Prop) : Prop where
  start_self : ∀ {s : Pool σ π} {x : ι} {m : σ} {p : π}, A s → ok s (.start x) → G s.shared →
    Everywhere I s → P.start s.shared s.procs.length x = some (m, p) → G m ∧ I m p
  start_other : ∀ {s : Pool σ π} {x : ι} {m : σ} {p : π} {i : Nat} {q : π}, A s →
    ok s (.start x) → G s.shared → Everywhere I s →
    P.start s.shared s.procs.length x = some (m, p) → s.procs[i]? = some q →
    I s.shared q → I m q
  act_self : ∀ {s : Pool σ π} {i : Nat} {p : π} {a : α} {m : σ} {p' : π}, A s →
    ok s (.act i a) → G s.shared → s.procs[i]? = some p → I s.shared p →
    P.act s.shared i p a = some (m, p') → G m ∧ I m p'
  act_other : ∀ {s : Pool σ π} {i : Nat} {p : π} {a : α} {m : σ} {p' : π} {j : Nat} {q : π},
    A s → ok s (.act i a) → G s.shared → s.procs[i]? = some p → I s.shared p →
    P.act s.shared i p a = some (m, p') → j ≠ i → s.procs[j]? = some q →
    I s.shared q → I m q

/-- A move keeps assertions that are undisturbed. -/
theorem Undisturbed.step {A : Pool σ π → Prop} {G : σ → Prop} {I : σ → π → Prop}
    (h : Undisturbed P ok A G I) {s s' : Pool σ π} {m : Move ι α}
    (known : A s) (cond : ok s m) (stepped : P.step s m = some s')
    (holds : G s.shared ∧ Everywhere I s) : G s'.shared ∧ Everywhere I s' := by
  obtain ⟨shared, localInv⟩ := holds
  cases m with
  | start x =>
      obtain ⟨m, p, started, rfl⟩ := step_start stepped
      obtain ⟨shared', own⟩ := h.start_self known cond shared localInv started
      refine ⟨shared', fun i q at_i => ?_⟩
      rcases Nat.lt_or_ge i s.procs.length with old | new
      · rw [List.getElem?_append_left old] at at_i
        exact h.start_other known cond shared localInv started at_i (localInv i q at_i)
      · rw [List.getElem?_append_right new] at at_i
        have : q = p := by
          rw [List.getElem?_singleton] at at_i
          split at at_i
          · exact (Option.some.inj at_i).symm
          · cases at_i
        exact this ▸ own
  | act i a =>
      obtain ⟨p, m, p', atIndex, acted, rfl⟩ := step_act stepped
      obtain ⟨shared', own⟩ := h.act_self known cond shared atIndex (localInv i p atIndex) acted
      refine ⟨shared', fun j q at_j => ?_⟩
      have inRange : i < s.procs.length := (List.getElem?_eq_some_iff.mp atIndex).1
      by_cases same : j = i
      · subst same
        simp only [List.getElem?_set_self inRange, Option.some.injEq] at at_j
        exact at_j ▸ own
      · rw [List.getElem?_set_ne (Ne.symm same)] at at_j
        exact h.act_other known cond shared atIndex (localInv i p atIndex) acted same at_j
          (localInv j q at_j)

/-- **Local assertions that no other process disturbs hold all along.** -/
theorem Exec.interference {A : Pool σ π → Prop} {G : σ → Prop} {I : σ → π → Prop}
    (known : ∀ s m s', A s → ok s m → P.step s m = some s' → A s')
    (h : Undisturbed P ok A G I) {s s' : Pool σ π} {ms : List (Move ι α)}
    (run : P.Exec ok s ms s') (base : A s) (holds : G s.shared ∧ Everywhere I s) :
    G s'.shared ∧ Everywhere I s' :=
  (Exec.invariant (fun s => A s ∧ G s.shared ∧ Everywhere I s)
    (fun s m s' inv cond stepped =>
      ⟨known s m s' inv.1 cond stepped, h.step inv.1 cond stepped inv.2⟩)
    run ⟨base, holds⟩).2

/-! ## Contributions -/

/-- Two processes contribute no more than all of them. -/
theorem add_le_sum {l : List π} {f : π → Nat} {i j : Nat} {p q : π} (ne : i ≠ j)
    (at_i : l[i]? = some p) (at_j : l[j]? = some q) : f p + f q ≤ (l.map f).sum := by
  induction l generalizing i j with
  | nil => cases at_i
  | cons r l ih =>
      simp only [List.map_cons, List.sum_cons]
      have inRest : ∀ {k : Nat} {p : π}, l[k]? = some p → f p ≤ (l.map f).sum := by
        intro k p at_k
        exact List.single_le_sum (fun _ _ => Nat.zero_le _) _
          (List.mem_map_of_mem (List.mem_of_getElem? at_k))
      cases i with
      | zero =>
          cases j with
          | zero => exact absurd rfl ne
          | succ j =>
              simp only [List.getElem?_cons_zero, Option.some.injEq,
                List.getElem?_cons_succ] at at_i at_j
              exact at_i ▸ Nat.add_le_add_left (inRest at_j) _
      | succ i =>
          cases j with
          | zero =>
              simp only [List.getElem?_cons_zero, Option.some.injEq,
                List.getElem?_cons_succ] at at_i at_j
              have := inRest at_i
              rw [at_j]
              omega
          | succ j =>
              simp only [List.getElem?_cons_succ] at at_i at_j
              have := ih (fun same => ne (congrArg Nat.succ same)) at_i at_j
              omega

section Account

variable {M : Type*} [AddCancelCommMonoid M]

theorem sum_set_add {l : List π} {i : Nat} {p : π} (f : π → M) (p' : π)
    (atIndex : l[i]? = some p) :
    ((l.set i p').map f).sum + f p = (l.map f).sum + f p' := by
  induction l generalizing i with
  | nil => cases atIndex
  | cons q l ih =>
      cases i with
      | zero =>
          simp only [List.getElem?_cons_zero, Option.some.injEq] at atIndex
          subst atIndex
          simp only [List.set_cons_zero, List.map_cons, List.sum_cons]
          ac_rfl
      | succ i =>
          simp only [List.getElem?_cons_succ] at atIndex
          simp only [List.set_cons_succ, List.map_cons, List.sum_cons]
          rw [add_assoc, ih atIndex, add_assoc]

/-- **Accounting.** A quantity of the shared memory that grows at every start
and every step by as much as the contribution of the process concerned is the
sum of the contributions, in executions whose states satisfy the already known
`A`. -/
theorem Exec.accountKnown {A : Pool σ π → Prop} {c : σ → M} {f : π → M}
    (known : ∀ s m s', A s → ok s m → P.step s m = some s' → A s')
    (start : ∀ {s : Pool σ π} {x m p}, A s → ok s (.start x) →
      P.start s.shared s.procs.length x = some (m, p) → c m = c s.shared + f p)
    (act : ∀ {s : Pool σ π} {i p a m p'}, A s → s.procs[i]? = some p →
      P.act s.shared i p a = some (m, p') → c m + f p = c s.shared + f p')
    {s s' : Pool σ π} {ms : List (Move ι α)} (run : P.Exec ok s ms s') (holds : A s)
    (base : c s.shared = (s.procs.map f).sum) : c s'.shared = (s'.procs.map f).sum := by
  refine (Exec.invariant (fun s => A s ∧ c s.shared = (s.procs.map f).sum) ?_ run
    ⟨holds, base⟩).2
  intro s m s' ⟨holds, balanced⟩ cond stepped
  refine ⟨known s m s' holds cond stepped, ?_⟩
  cases m with
  | start x =>
      obtain ⟨m, p, started, rfl⟩ := step_start stepped
      simp only [start holds cond started, balanced, List.map_append, List.map_cons,
        List.map_nil, List.sum_append, List.sum_cons, List.sum_nil, add_zero]
  | act i a =>
      obtain ⟨p, m, p', atIndex, acted, rfl⟩ := step_act stepped
      have moved := act holds atIndex acted
      rw [balanced, ← sum_set_add f p' atIndex] at moved
      exact add_right_cancel moved

/-- Accounting where a step says all there is to know about itself. -/
theorem Exec.account {c : σ → M} {f : π → M}
    (start : ∀ {s : Pool σ π} {x m p}, ok s (.start x) →
      P.start s.shared s.procs.length x = some (m, p) → c m = c s.shared + f p)
    (act : ∀ {m i p a m' p'}, P.act m i p a = some (m', p') → c m' + f p = c m + f p')
    {s s' : Pool σ π} {ms : List (Move ι α)} (run : P.Exec ok s ms s')
    (base : c s.shared = (s.procs.map f).sum) : c s'.shared = (s'.procs.map f).sum :=
  Exec.accountKnown (A := fun _ => True) (c := c) (f := f) (fun _ _ _ _ _ _ => trivial)
    (fun _ => start) (fun _ _ => act) run trivial base

/-- Contributions that no step lowers add up to more and more. -/
theorem Exec.sum_le {f : π → Nat}
    (act : ∀ {m i p a m' p'}, P.act m i p a = some (m', p') → f p ≤ f p')
    {s s' : Pool σ π} {ms : List (Move ι α)} (run : P.Exec ok s ms s') :
    (s.procs.map f).sum ≤ (s'.procs.map f).sum := by
  induction run with
  | nil => exact Nat.le_refl _
  | @cons s s₁ s₂ m ms _ stepped _ ih =>
      refine Nat.le_trans ?_ ih
      cases m with
      | start x =>
          obtain ⟨m, p, _, rfl⟩ := step_start stepped
          simp only [List.map_append, List.sum_append, Nat.le_add_right]
      | act i a =>
          obtain ⟨p, m, p', atIndex, acted, rfl⟩ := step_act stepped
          have moved := sum_set_add f p' atIndex
          have := act acted
          dsimp only
          omega

end Account

/-! ## Identity and progress of one process -/

/-- A process of the pool after a move is one from before, or the one that the
move started or stepped. -/
theorem step_procs {s s' : Pool σ π} {m : Move ι α} (stepped : P.step s m = some s') {i : Nat}
    {p : π} (after : s'.procs[i]? = some p) :
    s.procs[i]? = some p ∨
      (i = s.procs.length ∧ ∃ x, m = .start x ∧ P.start s.shared i x = some (s'.shared, p)) ∨
      ∃ a p₀, m = .act i a ∧ s.procs[i]? = some p₀ ∧
        P.act s.shared i p₀ a = some (s'.shared, p) := by
  cases m with
  | start x =>
      obtain ⟨mem, q, started, rfl⟩ := step_start stepped
      rcases Nat.lt_or_ge i s.procs.length with old | new
      · rw [List.getElem?_append_left old] at after
        exact .inl after
      · rw [List.getElem?_append_right new, List.getElem?_singleton] at after
        split at after
        · cases after
          obtain rfl : i = s.procs.length := by omega
          exact .inr (.inl ⟨rfl, x, rfl, started⟩)
        · cases after
  | act j a =>
      obtain ⟨p₀, mem, q, atIndex, acted, rfl⟩ := step_act stepped
      by_cases same : i = j
      · subst same
        rw [List.getElem?_set_self (List.getElem?_eq_some_iff.mp atIndex).1] at after
        cases after
        exact .inr (.inr ⟨a, p₀, rfl, atIndex, acted⟩)
      · rw [List.getElem?_set_ne (Ne.symm same)] at after
        exact .inl after

/-- A property of each process by itself. -/
theorem Exec.localInvariant (J : Nat → π → Prop)
    (start : ∀ {s : Pool σ π} {x m p}, ok s (.start x) →
      P.start s.shared s.procs.length x = some (m, p) → J s.procs.length p)
    (act : ∀ {m i p a m' p'}, P.act m i p a = some (m', p') → J i p → J i p')
    {s s' : Pool σ π} {ms : List (Move ι α)} (run : P.Exec ok s ms s')
    (base : ∀ i p, s.procs[i]? = some p → J i p) : ∀ i p, s'.procs[i]? = some p → J i p := by
  refine Exec.invariant (fun s => ∀ i p, s.procs[i]? = some p → J i p) ?_ run base
  intro s m s' holds cond stepped i p after
  rcases step_procs stepped after with old | ⟨rfl, x, rfl, started⟩ | ⟨a, p₀, rfl, atIndex, acted⟩
  · exact holds i p old
  · exact start cond started
  · exact act acted (holds i p₀ atIndex)

/-- A process that has been started stays in the pool, under its index. -/
theorem step_getElem? {s s' : Pool σ π} {m : Move ι α} (stepped : P.step s m = some s')
    {i : Nat} {p : π} (atIndex : s.procs[i]? = some p) :
    (s'.procs[i]? = some p ∧ m.isActOf i = false) ∨
      ∃ a p', m = .act i a ∧ P.act s.shared i p a = some (s'.shared, p') ∧
        s'.procs[i]? = some p' := by
  have inRange : i < s.procs.length := (List.getElem?_eq_some_iff.mp atIndex).1
  cases m with
  | start x =>
      obtain ⟨m, q, _, rfl⟩ := step_start stepped
      exact .inl ⟨by rw [List.getElem?_append_left inRange, atIndex], rfl⟩
  | act j a =>
      obtain ⟨q, m, q', at_j, acted, rfl⟩ := step_act stepped
      by_cases same : i = j
      · subst same
        obtain rfl : q = p := Option.some.inj (at_j.symm.trans atIndex)
        exact .inr ⟨a, q', rfl, acted, List.getElem?_set_self inRange⟩
      · refine .inl ⟨by rw [List.getElem?_set_ne (Ne.symm same), atIndex], ?_⟩
        simpa only [Move.isActOf, beq_eq_false_iff_ne, ne_eq] using same

theorem Exec.getElem? {s s' : Pool σ π} {ms : List (Move ι α)} (run : P.Exec ok s ms s')
    {i : Nat} {p : π} (atIndex : s.procs[i]? = some p) : ∃ p', s'.procs[i]? = some p' := by
  induction run generalizing p with
  | nil => exact ⟨p, atIndex⟩
  | cons _ stepped _ ih =>
      rcases step_getElem? stepped atIndex with ⟨kept, _⟩ | ⟨_, p', _, _, kept⟩
      · exact ih kept
      · exact ih kept

theorem step_length_le {s s' : Pool σ π} {m : Move ι α} (stepped : P.step s m = some s') :
    s.procs.length ≤ s'.procs.length := by
  cases m with
  | start x =>
      obtain ⟨m, p, _, rfl⟩ := step_start stepped
      simp only [List.length_append, List.length_singleton, Nat.le_add_right]
  | act i a =>
      obtain ⟨_, _, _, _, _, rfl⟩ := step_act stepped
      simp only [List.length_set, Nat.le_refl]

/-- What a process's own steps preserve, an execution preserves of it. -/
theorem Exec.own {I : π → Prop}
    (act : ∀ {m i p a m' p'}, P.act m i p a = some (m', p') → I p → I p')
    {s s' : Pool σ π} {ms : List (Move ι α)} (run : P.Exec ok s ms s')
    {i : Nat} {p p' : π} (before : s.procs[i]? = some p) (after : s'.procs[i]? = some p')
    (base : I p) : I p' := by
  induction run generalizing p with
  | nil => exact Option.some.inj (before.symm.trans after) ▸ base
  | cons _ stepped _ ih =>
      rcases step_getElem? stepped before with ⟨kept, _⟩ | ⟨_, q, _, acted, kept⟩
      · exact ih kept after base
      · exact ih kept after (act acted base)

/-- A process that cannot step any more stays as it is. -/
theorem Exec.stuck {s s' : Pool σ π} {ms : List (Move ι α)} (run : P.Exec ok s ms s')
    {i : Nat} {p : π} (halted : ∀ m a, P.act m i p a = none) (before : s.procs[i]? = some p) :
    s'.procs[i]? = some p := by
  induction run with
  | nil => exact before
  | cons _ stepped _ ih =>
      rcases step_getElem? stepped before with ⟨kept, _⟩ | ⟨a, _, _, acted, _⟩
      · exact ih kept
      · rw [halted] at acted
        cases acted

/-- A process not yet started has made no step. -/
theorem Exec.acts_eq_zero {s s' : Pool σ π} {ms : List (Move ι α)} (run : P.Exec ok s ms s')
    {i : Nat} (late : s'.procs.length ≤ i) : ms.countP (Move.isActOf i) = 0 := by
  refine Exec.snocInduction
    (motive := fun ms s' => s'.procs.length ≤ i → ms.countP (Move.isActOf i) = 0)
    (fun _ => rfl) ?_ run late
  intro ms s₁ m s₂ run cond stepped ih late
  rw [List.countP_append, ih (Nat.le_trans (step_length_le stepped) late), List.countP_singleton]
  cases m with
  | start x => rfl
  | act j a =>
      obtain ⟨_, _, _, at_j, _, _⟩ := step_act stepped
      have : j < s₁.procs.length := (List.getElem?_eq_some_iff.mp at_j).1
      have := step_length_le stepped
      simp only [Move.isActOf, beq_iff_eq, Nat.zero_add, ite_eq_right_iff]
      omega

/-- **Bounded steps.** Where every step of a process of some kind adds to its
progress, the steps it has made in an execution are at most the progress it
shows at the end. -/
theorem Exec.acts_le_progress (kind : π → Prop) (progress : π → Nat)
    (act : ∀ {m i p a m' p'}, P.act m i p a = some (m', p') → kind p' →
      kind p ∧ progress p < progress p')
    {s s' : Pool σ π} {ms : List (Move ι α)} (run : P.Exec ok s ms s') {i : Nat} {p' : π}
    (after : s'.procs[i]? = some p') (ofKind : kind p') :
    ms.countP (Move.isActOf i) ≤ progress p' := by
  refine Exec.snocInduction
    (motive := fun ms s' => ∀ p', s'.procs[i]? = some p' → kind p' →
      ms.countP (Move.isActOf i) ≤ progress p') ?_ ?_ run p' after ofKind
  · intro p' _ _
    simp only [List.countP_nil, Nat.zero_le]
  · intro ms s₁ m s₂ run cond stepped ih p' after ofKind
    rw [List.countP_append, List.countP_singleton]
    rcases Nat.lt_or_ge i s₁.procs.length with old | new
    · have before : s₁.procs[i]? = some s₁.procs[i] := List.getElem?_eq_getElem old
      rcases step_getElem? stepped before with ⟨kept, other⟩ | ⟨a, q, rfl, acted, kept⟩
      · rw [other]
        exact ih p' (before.trans (kept.symm.trans after)) ofKind
      · obtain rfl : q = p' := Option.some.inj (kept.symm.trans after)
        obtain ⟨ofKind₁, grew⟩ := act acted ofKind
        have bound := ih _ before ofKind₁
        split <;> omega
    · rw [run.acts_eq_zero new]
      cases m with
      | start x => exact Nat.zero_le _
      | act j a =>
          obtain ⟨_, _, _, _, _, rfl⟩ := step_act stepped
          have : i < s₁.procs.length := by
            simpa only [List.length_set] using (List.getElem?_eq_some_iff.mp after).1
          omega

/-- A measure of the pool that every step of process `i` raises and no other move lowers
bounds the steps that the process has made. -/
theorem Exec.acts_le_measure {A : Pool σ π → Prop} (μ : Pool σ π → Nat) {i : Nat}
    (known : ∀ s m s', A s → ok s m → P.step s m = some s' → A s')
    (own : ∀ {s a s'}, A s → ok s (.act i a) → P.step s (.act i a) = some s' → μ s < μ s')
    (other : ∀ {s m s'}, A s → ok s m → m.isActOf i = false → P.step s m = some s' → μ s ≤ μ s')
    {s s' : Pool σ π} {ms : List (Move ι α)} (run : P.Exec ok s ms s') (holds : A s) :
    ms.countP (Move.isActOf i) ≤ μ s' := by
  refine (Exec.snocInduction (motive := fun ms s' => A s' ∧ ms.countP (Move.isActOf i) ≤ μ s')
    ⟨holds, Nat.zero_le _⟩ ?_ run).2
  intro ms s₁ m s₂ _ cond stepped ⟨holds, bound⟩
  refine ⟨known s₁ m s₂ holds cond stepped, ?_⟩
  rw [List.countP_append, List.countP_singleton]
  cases isOwn : m.isActOf i with
  | false => exact Nat.le_trans bound (other holds cond isOwn stepped)
  | true =>
      cases m with
      | start x => cases isOwn
      | act j a =>
          obtain rfl : i = j := by simpa only [Move.isActOf, beq_iff_eq] using isOwn
          have := own holds cond stepped
          rw [if_pos rfl]
          omega

end Program

end Interleaving
