import ModAlloc.Lib.Observer

/-!
# Programs side by side

Two programs over one shared memory: a scheduler moves the processes of either. What the
second program writes, the first may meet with.

* `Beside.lockstep`: where the moves of the first program do not depend on what the second
  one writes, there is an execution of the first program alone by the same moves.
* `Beside.account`: a quantity that the first program accounts for, and that the second one
  leaves alone or sets to zero, is what has been contributed since it was last set.
-/

namespace Interleaving.Program

universe u v w x

variable {σ : Type u} {π θ : Type v} {ι κ : Type w} {α β : Type x}

/-- The shared memory, and the processes of the one and of the other program. -/
structure Both (σ : Type u) (π θ : Type v) where
  shared : σ
  procs : List π
  others : List θ

/-- The pool of the first program. -/
def Both.left (b : Both σ π θ) : Pool σ π := ⟨b.shared, b.procs⟩

/-- The pool of the second program. -/
def Both.right (b : Both σ π θ) : Pool σ θ := ⟨b.shared, b.others⟩

/-- `Beside P Q ok b ms b'`: moves of both programs lead from `b` to `b'`, and `ms` are
those of the first, each of which meets `ok`. -/
inductive Beside (P : Program σ π ι α) (Q : Program σ θ κ β) (ok : Pool σ π → Move ι α → Prop)
    (b : Both σ π θ) : List (Move ι α) → Both σ π θ → Prop
  | nil : Beside P Q ok b [] b
  | left {b' : Both σ π θ} {ms : List (Move ι α)} {m : Move ι α} {s : Pool σ π} :
    Beside P Q ok b ms b' → ok b'.left m → P.step b'.left m = some s →
    Beside P Q ok b (ms ++ [m]) ⟨s.shared, s.procs, b'.others⟩
  | right {b' : Both σ π θ} {ms : List (Move ι α)} {n : Move κ β} {t : Pool σ θ} :
    Beside P Q ok b ms b' → Q.step b'.right n = some t →
    Beside P Q ok b ms ⟨t.shared, b'.procs, t.procs⟩

variable {P : Program σ π ι α} {Q : Program σ θ κ β} {ok : Pool σ π → Move ι α → Prop}
  {b b' b'' : Both σ π θ} {ms ms' : List (Move ι α)}

theorem Beside.append (first : Beside P Q ok b ms b') (second : Beside P Q ok b' ms' b'') :
    Beside P Q ok b (ms ++ ms') b'' := by
  induction second with
  | nil => rwa [List.append_nil]
  | left _ cond stepped ih => exact List.append_assoc .. ▸ ih.left cond stepped
  | right _ stepped ih => exact ih.right stepped

/-- The first program by itself. -/
theorem Exec.beside {s : Pool σ π} (run : P.Exec ok b.left ms s) :
    Beside P Q ok b ms ⟨s.shared, s.procs, b.others⟩ := by
  refine Exec.snocInduction (motive := fun ms s => Beside P Q ok b ms ⟨s.shared, s.procs, b.others⟩)
    .nil ?_ run
  exact fun _ _ _ _ _ cond stepped sofar => sofar.left cond stepped

/-- What the moves of both programs preserve. -/
theorem Beside.invariant (Inv : Both σ π θ → Prop)
    (left : ∀ {b m s}, Inv b → ok b.left m → P.step b.left m = some s →
      Inv ⟨s.shared, s.procs, b.others⟩)
    (right : ∀ {b n t}, Inv b → Q.step b.right n = some t → Inv ⟨t.shared, b.procs, t.procs⟩)
    (run : Beside P Q ok b ms b') (base : Inv b) : Inv b' := by
  induction run with
  | nil => exact base
  | left _ cond stepped ih => exact left ih cond stepped
  | right _ stepped ih => exact right ih stepped

/-- **Lockstep.** Pools that a move of the first program keeps equivalent, and that a move
of the second leaves equivalent to what they were, stay so all along. -/
theorem Beside.lockstep {E : Pool σ π → Pool σ π → Prop}
    (left : ∀ {s s' t m}, E s t → ok s m → P.step s m = some s' →
      ok t m ∧ ∃ t', P.step t m = some t' ∧ E s' t')
    (right : ∀ {s t : Pool σ π} {θs n r}, E s t → Q.step ⟨s.shared, θs⟩ n = some r →
      E ⟨r.shared, s.procs⟩ t)
    {t : Pool σ π} (run : Beside P Q ok b ms b') (base : E b.left t) :
    ∃ t', P.Exec ok t ms t' ∧ E b'.left t' := by
  induction run with
  | nil => exact ⟨t, .nil t, base⟩
  | left _ cond stepped ih =>
      obtain ⟨t₁, exec, same⟩ := ih
      obtain ⟨cond', t', stepped', same'⟩ := left same cond stepped
      exact ⟨t', exec.snoc cond' stepped', same'⟩
  | right _ stepped ih =>
      obtain ⟨t₁, exec, same⟩ := ih
      exact ⟨t₁, exec, right (s := Both.left _) same stepped⟩

section Account

variable {M : Type*} [AddCommGroup M]

/-- **Accounting under resets.** `waiting` says of the processes of the second program that
the reset to look for is still to come. -/
theorem Beside.account {A : Pool σ π → Prop} {c : σ → M} {f : π → M} (waiting : List θ → Prop)
    (left : ∀ {s m s'}, A s → ok s m → P.step s m = some s' →
      A s' ∧ c s'.shared + (s.procs.map f).sum = c s.shared + (s'.procs.map f).sum)
    (right : ∀ {s : Pool σ π} {θs n t}, A s → Q.step ⟨s.shared, θs⟩ n = some t →
      A ⟨t.shared, s.procs⟩ ∧
        (c t.shared = 0 ∨ (c t.shared = c s.shared ∧ (waiting θs → waiting t.procs))))
    (run : Beside P Q ok b ms b') (known : A b.left) (base : waiting b.others) :
    A b'.left ∧ (waiting b'.others ∨ ∃ r before after, ms = before ++ after ∧
      Beside P Q ok b before r ∧ Beside P Q ok r after b' ∧
      c b'.shared = (b'.procs.map f).sum - (r.procs.map f).sum) := by
  induction run with
  | nil => exact ⟨known, .inl base⟩
  | @left b' ms m s' upTo cond stepped ih =>
      obtain ⟨knownHere, sofar⟩ := ih
      obtain ⟨known', moved⟩ := left knownHere cond stepped
      refine ⟨known', sofar.imp_right ?_⟩
      rintro ⟨r, before, after, rfl, first, second, value⟩
      refine ⟨r, before, after ++ [m], List.append_assoc .., first, second.left cond stepped, ?_⟩
      calc c s'.shared
        _ = c b'.shared + (s'.procs.map f).sum - (b'.procs.map f).sum := eq_sub_of_add_eq moved
        _ = (b'.procs.map f).sum - (r.procs.map f).sum + (s'.procs.map f).sum -
              (b'.procs.map f).sum := by rw [value]
        _ = (s'.procs.map f).sum - (r.procs.map f).sum := by abel
  | @right b' ms n t upTo stepped ih =>
      obtain ⟨knownHere, sofar⟩ := ih
      obtain ⟨known', zero | ⟨same, waits⟩⟩ := right (s := b'.left) knownHere stepped
      · refine ⟨known', .inr ⟨_, ms, [], (List.append_nil ms).symm, upTo.right stepped, .nil, ?_⟩⟩
        rw [sub_self]
        exact zero
      · refine ⟨known', sofar.imp waits ?_⟩
        rintro ⟨r, before, after, rfl, first, second, value⟩
        exact ⟨r, before, after, rfl, first, second.right stepped, same.trans value⟩

end Account

/-! ## Executable -/

/-- Where a list of moves of both programs leads. -/
def beside (P : Program σ π ι α) (Q : Program σ θ κ β) (ok : Pool σ π → Move ι α → Prop)
    [∀ s m, Decidable (ok s m)] (b : Both σ π θ) : List (Move ι α ⊕ Move κ β) → Option (Both σ π θ)
  | [] => some b
  | .inl m :: es =>
      if ok b.left m then
        (P.step b.left m).bind fun s => beside P Q ok ⟨s.shared, s.procs, b.others⟩ es
      else none
  | .inr n :: es => (Q.step b.right n).bind fun t => beside P Q ok ⟨t.shared, b.procs, t.procs⟩ es

theorem Beside.of_beside [∀ s m, Decidable (ok s m)] {es : List (Move ι α ⊕ Move κ β)}
    (upTo : Beside P Q ok b ms b') (led : beside P Q ok b' es = some b'') :
    Beside P Q ok b (ms ++ es.filterMap Sum.getLeft?) b'' := by
  induction es generalizing b' ms with
  | nil =>
      cases led
      rwa [List.filterMap_nil, List.append_nil]
  | cons e es ih =>
      cases e with
      | inl m =>
          rw [beside] at led
          split at led
          case isTrue cond =>
              obtain ⟨s, stepped, rest⟩ := Option.bind_eq_some_iff.mp led
              rw [List.filterMap_cons_some (Sum.getLeft?_inl), ← List.singleton_append,
                ← List.append_assoc]
              exact ih (upTo.left cond stepped) rest
          case isFalse => cases led
      | inr n =>
          obtain ⟨t, stepped, rest⟩ := Option.bind_eq_some_iff.mp led
          rw [List.filterMap_cons_none (Sum.getLeft?_inr)]
          exact ih (upTo.right stepped) rest

end Interleaving.Program
