import ModAlloc.Lib.HighWater

/-!
# Observers

A reader takes one value after the other from the shared memory of a program while its
processes go on. It writes nothing, so the program runs as it would without it
(`Observes.exec`); what the reader has in hand when it is done comes from states that
the execution passed through while it was reading (`Observes.invariant`).
-/

namespace Interleaving.Program

universe u v w x

variable {σ : Type u} {π : Type v} {ι : Type w} {α : Type x} {ρ : Type*} {P : Program σ π ι α}
  {ok : Pool σ π → Move ι α → Prop} {read : σ → ρ → Option ρ} {s₀ s s' : Pool σ π} {r₀ r r' : ρ}
  {ms : List (Move ι α)}

/-- `Observes P ok read s₀ r₀ ms s r`: the moves lead from `s₀` to `s`, and a reader that
was at `r₀` has come to `r`. -/
inductive Observes (P : Program σ π ι α) (ok : Pool σ π → Move ι α → Prop) (read : σ → ρ → Option ρ)
    (s₀ : Pool σ π) (r₀ : ρ) : List (Move ι α) → Pool σ π → ρ → Prop
  | start : Observes P ok read s₀ r₀ [] s₀ r₀
  | read {s : Pool σ π} {r r' : ρ} {ms : List (Move ι α)} :
    Observes P ok read s₀ r₀ ms s r → read s.shared r = some r' → Observes P ok read s₀ r₀ ms s r'
  | move {s s' : Pool σ π} {r : ρ} {ms : List (Move ι α)} {m : Move ι α} :
    Observes P ok read s₀ r₀ ms s r → ok s m → P.step s m = some s' →
    Observes P ok read s₀ r₀ (ms ++ [m]) s' r

/-- A reader does not change what the program does. -/
theorem Observes.exec (obs : Observes P ok read s₀ r₀ ms s r) : P.Exec ok s₀ ms s := by
  induction obs with
  | start => exact .nil s₀
  | read _ _ ih => exact ih
  | move _ cond stepped ih => exact ih.snoc cond stepped

/-- **What a reader knows is about states that it has been in.** `I` may rest on any
states of the way, and every reading is made in one of them. -/
theorem Observes.invariant {I : (Pool σ π → Prop) → ρ → Prop}
    (mono : ∀ {V V' : Pool σ π → Prop} {r}, (∀ t, V t → V' t) → I V r → I V' r)
    (reads : ∀ {V : Pool σ π → Prop} {t r r'}, V t → I V r → read t.shared r = some r' → I V r')
    (obs : Observes P ok read s₀ r₀ ms s r) (base : ∀ V, I V r₀) : I (Visited P ok s₀ ms s) r := by
  induction obs with
  | start => exact base _
  | read before reading ih => exact reads (.last before.exec) ih reading
  | move _ cond stepped ih => exact mono (fun _ visited => visited.snoc cond stepped) ih

theorem Visited.left {s₁ : Pool σ π} (visited : Visited P ok s₀ ms s s₁) :
    ∃ ms, P.Exec ok s₀ ms s₁ := by
  obtain ⟨before, _, _, left, _⟩ := visited
  exact ⟨before, left⟩

theorem Visited.right {s₁ : Pool σ π} (visited : Visited P ok s₀ ms s s₁) :
    ∃ ms, P.Exec ok s₁ ms s := by
  obtain ⟨_, after, _, _, right⟩ := visited
  exact ⟨after, right⟩

/-- The observation that a list of events makes: `none` is a reading, `some m` a move. -/
def observe (P : Program σ π ι α) (ok : Pool σ π → Move ι α → Prop) [∀ s m, Decidable (ok s m)]
    (read : σ → ρ → Option ρ) (s : Pool σ π) (r : ρ) :
    List (Option (Move ι α)) → Option (Pool σ π × ρ)
  | [] => some (s, r)
  | none :: es => (read s.shared r).bind fun r' => P.observe ok read s r' es
  | some m :: es => if ok s m then (P.step s m).bind fun s' => P.observe ok read s' r es else none

theorem Observes.of_observe [∀ s m, Decidable (ok s m)] {es : List (Option (Move ι α))}
    (obs : Observes P ok read s₀ r₀ ms s r) (observed : P.observe ok read s r es = some (s', r')) :
    Observes P ok read s₀ r₀ (ms ++ es.reduceOption) s' r' := by
  induction es generalizing s r ms with
  | nil =>
      cases observed
      rwa [List.reduceOption_nil, List.append_nil]
  | cons e es ih =>
      cases e with
      | none =>
          obtain ⟨r₁, reading, rest⟩ := Option.bind_eq_some_iff.mp observed
          rw [List.reduceOption_cons_of_none]
          exact ih (obs.read reading) rest
      | some m =>
          rw [observe] at observed
          split at observed
          · obtain ⟨s₁, stepped, rest⟩ := Option.bind_eq_some_iff.mp observed
            rw [List.reduceOption_cons_of_some, ← List.singleton_append, ← List.append_assoc]
            exact ih (obs.move ‹_› stepped) rest
          · cases observed

end Interleaving.Program
