import ModAlloc.Allocator

/-!
# The course of a `GlobalAlloc` call

* `AllocCall.WellFormed`: how far a call has come with its counter updates.
* `everywhere_of_exec`: what a call keeps up by itself, and no other call takes away,
  holds of every call.
* `counters_account`: each counter other than the two peaks is what the updates
  of the calls have made of it, whatever the interleaving.
-/

namespace ModAlloc

open Interleaving Interleaving.Program

variable {backtraces : Bool} {st : Statics} {w w' : AllocWorld} {c c' d : AllocCall}

theorem allocProgram_start {i : Nat} {arg : Nat × Request}
    (started : (allocProgram backtraces st).start w i arg = some (w', c)) :
    w' = w.call i arg ∧ c = .init w i arg.1 arg.2 := by
  cases started
  exact ⟨rfl, rfl⟩

theorem allocProgram_act {i : Nat} {a : Answer}
    (acted : (allocProgram backtraces st).act w i c a = some (w', c')) :
    (w.stack c.thread).head? = some c.index ∧ AllocCall.Trans backtraces st w c w' c' :=
  AllocCall.trans_of_step acted

/-! ## The course of one call -/

/-- How far a call has come, as its own fields tell. -/
def AllocCall.Progress (c : AllocCall) : Prop :=
  match c.pc with
  | .system => c.granted = false ∧ c.updates = [] ∧ c.site = none
  | .enter => c.granted = true ∧ c.updates = [] ∧ c.site = none
  | .update u rest _ =>
      c.granted = true ∧ c.updates ++ u :: rest = c.request.updates ∧ c.site = none
  | .loadHandle | .casHandle | .capture =>
      c.granted = true ∧ c.updates = c.request.updates ∧ c.site = none ∧
        c.request.isDealloc = false
  | .inTable k =>
      c.granted = true ∧ c.updates = c.request.updates ∧ c.site = some k ∧
        c.request.isDealloc = false
  | .dropGuard =>
      c.granted = true ∧ c.updates = c.request.updates ∧
        (c.request.isDealloc = true → c.site = none)
  | .returned => (c.updates = [] ∧ c.site = none) ∨
      (c.granted = true ∧ c.updates = c.request.updates ∧
        (c.request.isDealloc = true → c.site = none))

/-- A call as the pool has it at index `i`. -/
structure AllocCall.WellFormed (i : Nat) (c : AllocCall) : Prop where
  index : c.index = i
  granted : c.request.isDealloc = false → (c.granted = true ↔ c.ptr ≠ 0)
  freed : c.request.isDealloc = true → c.pc = .returned → c.granted = true
  progress : c.Progress

theorem AllocCall.withUpdates_ne_returned (request : Request) (old : U64) (us : List Update) :
    withUpdates request old us ≠ .returned := by
  cases us with
  | cons u us => exact CallPc.noConfusion
  | nil =>
      rw [withUpdates]
      split <;> exact CallPc.noConfusion

theorem AllocCall.afterRegister_ne_returned (backtraces : Bool) :
    afterRegister backtraces ≠ .returned := by
  cases backtraces <;> exact CallPc.noConfusion

/-- With updates still to make, or none, a call is where it should be. -/
theorem AllocCall.progress_withUpdates {done rest : List Update} {old : U64}
    (granted : c.granted = true) (sofar : done ++ rest = c.request.updates)
    (site : c.site = none) :
    AllocCall.Progress { c with updates := done, pc := withUpdates c.request old rest } := by
  cases rest with
  | cons u us => exact ⟨granted, sofar, site⟩
  | nil =>
      rw [List.append_nil] at sofar
      cases kind : c.request.isDealloc with
      | true =>
          simp only [withUpdates, kind, if_true, Progress]
          exact ⟨granted, sofar, fun _ => site⟩
      | false =>
          simp only [withUpdates, kind, Bool.false_eq_true, if_false, Progress]
          exact ⟨granted, sofar, site, trivial⟩

/-- After `register_self`, a call has made all its updates. -/
theorem AllocCall.progress_afterRegister (granted : c.granted = true)
    (full : c.updates = c.request.updates) (site : c.site = none)
    (kind : c.request.isDealloc = false) :
    AllocCall.Progress { c with pc := afterRegister backtraces } := by
  cases backtraces with
  | true => exact ⟨granted, full, site, kind⟩
  | false => exact ⟨granted, full, fun dealloc => absurd (kind.symm.trans dealloc) (by decide)⟩

theorem AllocCall.Trans.progress (trans : AllocCall.Trans backtraces st w c w' c')
    (progress : c.Progress) : c'.Progress := by
  cases trans with
  | systemFrees pc _ | systemGrants pc _ _ =>
      simp only [Progress, pc] at progress
      exact ⟨rfl, progress.2⟩
  | systemFails pc _ =>
      simp only [Progress, pc] at progress
      exact .inl progress.2
  | enters pc _ =>
      simp only [Progress, pc] at progress
      obtain ⟨granted, none, site⟩ := progress
      rw [show c = { c with updates := [] } by rw [← none]]
      exact progress_withUpdates granted (List.nil_append _) site
  | denied pc _ =>
      simp only [Progress, pc] at progress
      exact .inl progress.2
  | update pc =>
      simp only [Progress, pc] at progress
      obtain ⟨granted, sofar, site⟩ := progress
      refine progress_withUpdates granted ?_ site
      rw [List.append_assoc]
      exact sofar
  | seeHandle pc _ | register pc =>
      simp only [Progress, pc] at progress
      obtain ⟨granted, full, site, kind⟩ := progress
      exact progress_afterRegister granted full site kind
  | seeNull pc _ =>
      simp only [Progress, pc] at progress
      exact progress
  | noFrames pc =>
      simp only [Progress, pc] at progress
      obtain ⟨granted, full, site, kind⟩ := progress
      exact ⟨granted, full, fun _ => site⟩
  | captured pc _ _ =>
      simp only [Progress, pc] at progress
      obtain ⟨granted, full, _, kind⟩ := progress
      exact ⟨granted, full, rfl, kind⟩
  | records pc _ _ =>
      simp only [Progress, pc] at progress
      exact progress
  | recorded pc _ _ =>
      simp only [Progress, pc] at progress
      obtain ⟨granted, full, _, kind⟩ := progress
      exact ⟨granted, full, fun dealloc => absurd (kind.symm.trans dealloc) (by decide)⟩
  | dropGuard pc =>
      simp only [Progress, pc] at progress
      exact .inr progress

/-- What a step keeps of the call. -/
theorem AllocCall.Trans.kept (trans : AllocCall.Trans backtraces st w c w' c') :
    c'.index = c.index ∧ c'.thread = c.thread ∧ c'.request = c.request ∧ c'.nested = c.nested := by
  cases trans <;> exact ⟨rfl, rfl, rfl, rfl⟩

theorem AllocCall.WellFormed.step {i : Nat} (wellFormed : c.WellFormed i)
    (trans : AllocCall.Trans backtraces st w c w' c') : c'.WellFormed i := by
  obtain ⟨index, granted, freed, progress⟩ := wellFormed
  refine ⟨trans.kept.1.trans index, ?_, ?_, trans.progress progress⟩
  · cases trans with
    | systemFrees pc kind => exact fun notDealloc => absurd (kind.symm.trans notDealloc) (by decide)
    | systemGrants pc kind nonnull => exact fun _ => ⟨fun _ => nonnull, fun _ => rfl⟩
    | _ => exact granted
  · intro dealloc returned
    have granted' : c.pc = .enter ∨ c.pc = .dropGuard → c.granted = true := by
      rintro (pc | pc)
      all_goals
        simp only [Progress, pc] at progress
        exact progress.1
    cases trans with
    | systemFails pc kind => exact absurd (kind.symm.trans dealloc) (by decide)
    | denied pc _ => exact granted' (.inl pc)
    | dropGuard pc => exact granted' (.inr pc)
    | enters pc _ | update pc => exact (withUpdates_ne_returned _ _ _ returned).elim
    | seeHandle pc _ | register pc => exact (afterRegister_ne_returned _ returned).elim
    | _ => cases returned

/-! ## Every state -/

/-- What the pool as a whole has to offer: stacks of calls that were made, and
calls that are well formed. -/
structure AllocState.Numbered (s : AllocState) : Prop where
  bound : ∀ t, ∀ i ∈ s.shared.stack t, i < s.procs.length
  wellFormed : ∀ i (c : AllocCall), s.procs[i]? = some c → c.WellFormed i

theorem AllocCall.wellFormed_init (w : AllocWorld) (i t : Nat) (request : Request) :
    (AllocCall.init w i t request).WellFormed i where
  index := rfl
  granted _ := ⟨fun granted => Bool.noConfusion granted, fun nonnull => absurd rfl nonnull⟩
  freed _ returned := by cases returned
  progress := ⟨rfl, rfl, rfl⟩

/-- The stack of a thread loses its top or stays as it is. -/
theorem AllocCall.Trans.stack (trans : AllocCall.Trans backtraces st w c w' c') (t : Nat) :
    w'.stack t = w.stack t ∨ (t = c.thread ∧ w'.stack t = (w.stack t).tail ∧ c'.pc = .returned) := by
  have leaving : ∀ v : AllocWorld, v.stack = w.stack → (AllocCall.leave v c).stack t = w.stack t ∨
      (t = c.thread ∧ (AllocCall.leave v c).stack t = (w.stack t).tail) := by
    intro v same
    by_cases own : t = c.thread
    · subst own
      exact .inr ⟨rfl, by rw [AllocCall.leave_stack_self, same]⟩
    · exact .inl (by rw [AllocCall.leave_stack_of_ne v own, same])
  cases trans with
  | systemFails _ _ | denied _ _ | dropGuard _ =>
      exact (leaving _ rfl).imp_right fun h => ⟨h.1, h.2, rfl⟩
  | _ => exact .inl rfl

variable {moves : List (Move (Nat × Request) Answer)} {s s' : AllocState}
  {ok : AllocState → Move (Nat × Request) Answer → Prop}

theorem AllocState.Numbered.step (numbered : s.Numbered) {m : Move (Nat × Request) Answer}
    (stepped : (allocProgram backtraces st).step s m = some s') : s'.Numbered := by
  obtain ⟨bound, wellFormed⟩ := numbered
  refine ⟨fun t i inStack => ?_, fun i c after => ?_⟩
  · have grown := step_length_le stepped
    cases m with
    | start arg =>
        obtain ⟨v, c, started, rfl⟩ := step_start stepped
        obtain ⟨rfl, rfl⟩ := allocProgram_start started
        simp only [List.length_append, List.length_singleton] at grown ⊢
        by_cases own : t = arg.1
        · subst own
          rw [AllocWorld.call_stack_self] at inStack
          rcases List.mem_cons.mp inStack with rfl | before
          · exact Nat.lt_succ_self _
          · exact Nat.lt_succ_of_lt (bound _ i before)
        · rw [AllocWorld.call_stack_of_ne _ _ own] at inStack
          exact Nat.lt_succ_of_lt (bound t i inStack)
    | act j a =>
        obtain ⟨c, v, c', atIndex, acted, rfl⟩ := step_act stepped
        rw [List.length_set]
        rcases (allocProgram_act acted).2.stack t with same | ⟨_, popped, _⟩
        · exact bound t i (same ▸ inStack)
        · exact bound t i (List.mem_of_mem_tail (popped ▸ inStack))
  · rcases step_procs stepped after with old | ⟨rfl, arg, rfl, started⟩ | ⟨a, c₀, rfl, before, acted⟩
    · exact wellFormed i c old
    · obtain ⟨_, rfl⟩ := allocProgram_start started
      exact AllocCall.wellFormed_init ..
    · exact (wellFormed i c₀ before).step (allocProgram_act acted).2

theorem AllocState.Numbered.initial : AllocState.initial.Numbered :=
  ⟨fun _ _ inStack => (List.not_mem_nil inStack).elim, fun i c atIndex => by cases atIndex⟩

theorem numbered_of_exec
    (run : (allocProgram backtraces st).Exec ok AllocState.initial moves s) : s.Numbered :=
  Exec.invariant AllocState.Numbered (fun _ _ _ numbered _ stepped => numbered.step stepped) run
    AllocState.Numbered.initial

/-- What every call keeps up: a call starts with it, its own steps keep it, and neither
the start nor a step of another call takes it away. -/
theorem everywhere_of_exec {I : AllocWorld → AllocCall → Prop}
    (init : ∀ (w : AllocWorld) i arg, I (w.call i arg) (.init w i arg.1 arg.2))
    (called : ∀ {w : AllocWorld} {d} i arg, I w d → I (w.call i arg) d)
    (own : ∀ {w c w' c'}, AllocCall.Trans backtraces st w c w' c' → c.Progress → I w c → I w' c')
    (other : ∀ {w c w' c' d}, AllocCall.Trans backtraces st w c w' c' → I w d → I w' d)
    (run : (allocProgram backtraces st).Exec ok AllocState.initial moves s) : Everywhere I s := by
  have undisturbed : Undisturbed (allocProgram backtraces st) ok AllocState.Numbered
      (fun _ => True) I :=
    { start_self := by
        intro s arg v c _ _ _ _ started
        obtain ⟨rfl, rfl⟩ := allocProgram_start started
        exact ⟨trivial, init ..⟩
      start_other := by
        intro s arg v c i d _ _ _ _ started _ holds
        obtain ⟨rfl, rfl⟩ := allocProgram_start started
        exact called _ _ holds
      act_self := by
        intro s i c a v c' numbered _ _ atIndex holds acted
        exact ⟨trivial, own (allocProgram_act acted).2
          (numbered.wellFormed i c atIndex).progress holds⟩
      act_other := by
        intro s i c a v c' j d _ _ _ _ _ acted _ _ holds
        exact other (allocProgram_act acted).2 holds }
  exact (Exec.interference (fun _ _ _ numbered _ stepped => numbered.step stepped) undisturbed run
    AllocState.Numbered.initial ⟨trivial, fun i c atIndex => by cases atIndex⟩).2

/-- What a call is asked, and whether inside another call, it keeps to its end. -/
theorem started_of_exec {K : Request → Bool → Prop}
    (start : ∀ {s : AllocState} {arg}, ok s (.start arg) →
      K arg.2 (!(s.shared.stack arg.1).isEmpty))
    (run : (allocProgram backtraces st).Exec ok AllocState.initial moves s) :
    ∀ c ∈ s.procs, K c.request c.nested := by
  intro c inProcs
  obtain ⟨i, atIndex⟩ := mem_procs_iff.mp inProcs
  refine Exec.localInvariant (fun _ c => K c.request c.nested) ?_ ?_ run
    (fun i c atIndex => by cases atIndex) i c atIndex
  · intro s arg v c cond started
    obtain ⟨rfl, rfl⟩ := allocProgram_start started
    exact start cond
  · intro w i c a w' c' acted holds
    obtain ⟨_, _, request, nested⟩ := (allocProgram_act acted).2.kept
    rwa [request, nested]

/-! ## The counters -/

/-- The two counters that `fetch_max` raises. -/
def Counter.isPeak : Counter → Bool
  | .peakBytes | .peakLiveCount => true
  | _ => false

/-- What an update adds to a counter. -/
def Update.change (k : Counter) : Update → ℤ
  | .fetchAdd c n => if c = k then n.toNat else 0
  | .fetchSub c n => if c = k then -n.toNat else 0
  | .fetchMax _ _ => 0

/-- What a call has added to a counter so far. -/
def AllocCall.effect (k : Counter) (c : AllocCall) : ℤ := (c.updates.map (Update.change k)).sum

/-- The peaks are raised, and the other counters added to. -/
def Update.wellAimed : Update → Bool
  | .fetchMax c _ => c.isPeak
  | .fetchAdd c _ | .fetchSub c _ => !c.isPeak

theorem intCast_toNat (n : U64) : ((n.toNat : ℤ) : U64) = n := by
  rw [Int.cast_natCast]
  exact BitVec.ofNat_toNat 64 n

theorem Update.exec_change {k : Counter} (notPeak : k.isPeak = false) {u : Update}
    (aimed : u.wellAimed = true) (r : Update.State) :
    (u.exec r).1 k = r.1 k + (u.change k : ℤ) := by
  cases u with
  | fetchAdd c n =>
      by_cases same : c = k
      · subst same
        simp only [exec, Function.update_self, change, if_true, intCast_toNat]
      · simp only [exec, Function.update_of_ne (Ne.symm same), change, if_neg same, Int.cast_zero,
          add_zero]
  | fetchSub c n =>
      by_cases same : c = k
      · subst same
        simp only [exec, Function.update_self, change, if_true, Int.cast_neg, intCast_toNat,
          ← sub_eq_add_neg]
      · simp only [exec, Function.update_of_ne (Ne.symm same), change, if_neg same, Int.cast_zero,
          add_zero]
  | fetchMax c n =>
      have other : k ≠ c := by
        rintro rfl
        exact absurd (notPeak.symm.trans aimed) (by decide)
      simp only [exec, Function.update_of_ne other, change, Int.cast_zero, add_zero]

theorem Request.wellAimed (request : Request) : ∀ u ∈ request.updates, u.wellAimed = true := by
  refine List.all_eq_true.mp ?_
  cases request with
  | alloc size | allocZeroed size | dealloc block => rfl
  | realloc block newSize =>
      rw [updates, recordRealloc]
      split
      · rfl
      · split <;> rfl

/-- One step of a call moves a counter by as much as it moves the effect of the call. -/
theorem AllocCall.Trans.account {k : Counter} (notPeak : k.isPeak = false)
    (trans : AllocCall.Trans backtraces st w c w' c') (progress : c.Progress) :
    w'.counters k + (c.effect k : ℤ) = w.counters k + (c'.effect k : ℤ) := by
  cases trans with
  | @update u rest old pc =>
      simp only [Progress, pc] at progress
      have aimed : u.wellAimed = true := by
        refine c.request.wellAimed u ?_
        rw [← progress.2.1]
        exact List.mem_append_right _ List.mem_cons_self
      simp only [effect, Update.exec_change notPeak aimed, List.map_append, List.map_cons,
        List.map_nil, List.sum_append, List.sum_cons, List.sum_nil, add_zero, Int.cast_add]
      ring
  | _ => rfl

/-- **The counters are the sum of what the calls have made of them**, whatever
the interleaving. -/
theorem counters_account {k : Counter} (notPeak : k.isPeak = false)
    (run : (allocProgram backtraces st).Exec ok AllocState.initial moves s) :
    s.shared.counters k = ((s.procs.map (AllocCall.effect k)).sum : ℤ) := by
  have account : s.shared.counters k = (s.procs.map fun c => ((c.effect k : ℤ) : U64)).sum := by
    refine Exec.accountKnown (P := allocProgram backtraces st) (A := AllocState.Numbered)
      (c := fun w : AllocWorld => w.counters k) (fun _ _ _ numbered _ stepped => numbered.step stepped)
      ?_ ?_ run AllocState.Numbered.initial rfl
    · intro s arg v c _ _ started
      obtain ⟨rfl, rfl⟩ := allocProgram_start started
      exact (add_zero _).symm
    · intro s i c a v c' numbered atIndex acted
      exact (allocProgram_act acted).2.account notPeak (numbered.wellFormed i c atIndex).progress
  rw [account, Int.cast_list_sum, List.map_map]
  rfl

/-! ## What a call is recorded with -/

/-- What the updates of a request add to a counter. -/
def Request.effect (k : Counter) (request : Request) : ℤ :=
  (request.updates.map (Update.change k)).sum

/-- The bytes that a `realloc` had before and keeps. -/
def Request.overlap : Request → Nat
  | .realloc block newSize => min block.size.toNat newSize.toNat
  | _ => 0

theorem Request.effect_allocCount (request : Request) :
    request.effect .allocCount = if request.isDealloc then 0 else 1 := by
  cases request with
  | alloc size | allocZeroed size | dealloc block => rfl
  | realloc block newSize =>
      rw [effect, updates, recordRealloc]
      split
      · rfl
      · split <;> rfl

theorem Request.effect_totalBytes (request : Request) :
    request.effect .totalBytes + request.overlap = request.size.toNat := by
  cases request with
  | alloc size | allocZeroed size =>
      simp [effect, updates, recordAlloc, Update.change, overlap, Request.size]
  | dealloc block => rfl
  | realloc block newSize =>
      simp only [effect, updates, overlap, Request.size]
      rcases BitVec.lt_trichotomy block.size newSize with grows | same | shrinks
      · have order : block.size.toNat < newSize.toNat := grows
        rw [recordRealloc_of_lt grows]
        simp [Update.change, BitVec.toNat_sub_of_le (BitVec.le_of_lt grows)]
        omega
      · rw [same, recordRealloc_self]
        simp [Update.change]
      · have order : newSize.toNat < block.size.toNat := shrinks
        rw [recordRealloc_of_gt shrinks]
        simp [Update.change]
        omega

theorem Request.effect_totalBytes_of_dealloc {request : Request}
    (kind : request.isDealloc = true) : request.effect .totalBytes = 0 := by
  cases request with
  | dealloc block => rfl
  | _ => cases kind

/-! ## The calls on the table -/

/-- The `record` process of a call, if it has one. -/
def AllocCall.sites (c : AllocCall) : Multiset Nat := (c.site : Option Nat).elim 0 ({·})

theorem tableStep_start {table table' : TableState} {call : Call}
    (stepped : (tableProgram st).step table (.start call) = some table') :
    table'.procs.length = table.procs.length + 1 := by
  obtain ⟨m, p, _, rfl⟩ := step_start stepped
  exact List.length_append

theorem tableStep_act {table table' : TableState} {k : Nat}
    (stepped : (tableProgram st).step table (.act k ()) = some table') :
    table'.procs.length = table.procs.length := by
  obtain ⟨_, _, _, _, _, rfl⟩ := step_act stepped
  exact List.length_set

/-- **The processes on the table are those of the calls**, one for each call that
has one. -/
theorem sites_account
    (run : (allocProgram backtraces st).Exec ok AllocState.initial moves s) :
    Multiset.range s.shared.table.procs.length = (s.procs.map AllocCall.sites).sum := by
  refine Exec.accountKnown (P := allocProgram backtraces st) (A := AllocState.Numbered)
    (c := fun w : AllocWorld => Multiset.range w.table.procs.length)
    (fun _ _ _ numbered _ stepped => numbered.step stepped) ?_ ?_ run AllocState.Numbered.initial rfl
  · intro s arg v c _ _ started
    obtain ⟨rfl, rfl⟩ := allocProgram_start started
    exact (add_zero _).symm
  · intro s i c a v c' numbered atIndex acted
    have progress := (numbered.wellFormed i c atIndex).progress
    cases (allocProgram_act acted).2 with
    | captured pc _ started =>
        simp only [AllocCall.Progress, pc] at progress
        simp only [AllocCall.sites, progress.2.2.1, Option.elim_none, Option.elim_some, add_zero,
          tableStep_start started, Multiset.range_succ]
        rw [← Multiset.singleton_add, add_comm]
    | records _ stepped _ | recorded _ stepped _ =>
        rw [tableStep_act stepped]
        rfl
    | _ => rfl

theorem sites_perm
    (run : (allocProgram backtraces st).Exec ok AllocState.initial moves s) :
    (s.procs.filterMap AllocCall.site).Perm (List.range s.shared.table.procs.length) := by
  have sites : ∀ l : List AllocCall, (l.map AllocCall.sites).sum = (l.filterMap AllocCall.site : List Nat) := by
    intro l
    induction l with
    | nil => rfl
    | cons c l ih =>
        rw [List.map_cons, List.sum_cons, ih, AllocCall.sites]
        cases site : c.site with
        | none => rw [List.filterMap_cons_none site, Option.elim_none, zero_add]
        | some k => rw [List.filterMap_cons_some site, Option.elim_some]; rfl
  have account := sites_account run
  rw [sites] at account
  exact Multiset.coe_eq_coe.mp account.symm

end ModAlloc
