import ModAlloc.Backtrace.Remap

/-!
# What the table is for

The table stands for a store: so many traces, each with a count and a sum of bytes. A
trace that the store does not have takes the next free place, or is dropped when there
is none; one with the hash of a trace that it has is counted as that trace. Whatever is
done to the table, in whatever order, recording, reporting and resetting, each report has
the rows of the store (`reports_refine`). Hashes, slots and probing are nowhere in the
store, nor is it asked that hashes do not collide.
-/

namespace ModAlloc

open Interleaving Interleaving.Program LinearProbe Aggregate

variable {st : Statics} {env : Option (List Char)} {mem mem' : Memory} {c c' : RecordCall}
  {frames frames' : Frames} {size : U64} {events : List (Frames × U64)}

/-! ## The store -/

/-- The traces that are kept, each with its count and its bytes. -/
abbrev Store := List (List U64 × (U64 × U64))

/-- The trace under which the store counts this one. -/
def Store.known (s : Store) (trace : List U64) : List U64 :=
  (s.find? fun site => traceHash site.1 = traceHash trace).elim trace Prod.fst

/-- One more event, in a store for `cap` traces. -/
def Store.record (cap : Nat) (s : Store) (trace : List U64) (size : U64) : Store :=
  if trace = [] then s else Aggregate.record cap s (s.known trace, (1, size))

/-! ## The table -/

/-- `bucket.sample_frames[j].store(0, ..)` -/
def Bucket.clearFrame (b : Bucket) : Fin 8 → Bucket
  | ⟨j, inRange⟩ => { b with sampleFrames := b.sampleFrames.set j 0 inRange }

/-- The stores of `_reset_for_test` to one bucket. -/
def Bucket.reset (b : Bucket) : Bucket :=
  let b := { b with hash := 0 }
  let b := { b with count := 0 }
  let b := { b with totalBytes := 0 }
  let b := { b with frameCount := 0 }
  (List.finRange 8).foldl Bucket.clearFrame b

/-- `_reset_for_test()` on an initialised table. -/
def resetForTest (st : Statics) (mem : Memory) : Memory :=
  (List.range st.buckets).foldl (fun mem i => mem.modify i Bucket.reset) mem

inductive TableOp where
  | record (frames : Frames) (size : U64)
  | report
  | reset
deriving DecidableEq, Repr

/-- The reports that a sequence of operations returns. -/
def reports (st : Statics) (mem : Memory) : List TableOp → List (List CallSiteStats)
  | [] => []
  | .record frames size :: ops => reports st (record st mem frames size) ops
  | .report :: ops => callSitesReport st mem :: reports st mem ops
  | .reset :: ops => reports st (resetForTest st mem) ops

/-- The same operations on a store. -/
def Store.reports (cap : Nat) (s : Store) : List TableOp → List Store
  | [] => []
  | .record frames size :: ops => Store.reports cap (s.record cap frames.trace size) ops
  | .report :: ops => s :: Store.reports cap s ops
  | .reset :: ops => Store.reports cap [] ops

/-! ## Resetting -/

theorem Bucket.foldl_clearFrame (js : List (Fin 8)) (b : Bucket) :
    js.foldl clearFrame b = { b with sampleFrames := (js.foldl clearFrame b).sampleFrames } ∧
      ∀ j ∈ js, (js.foldl clearFrame b).sampleFrames.get j = 0 := by
  induction js using List.reverseRecOn with
  | nil => exact ⟨rfl, fun j none => (List.not_mem_nil none).elim⟩
  | append_singleton js i ih =>
      obtain ⟨same, cleared⟩ := ih
      rw [List.foldl_concat]
      refine ⟨by rw [clearFrame, same], fun j inList => ?_⟩
      by_cases here : j = i
      · subst here
        exact Vector.getElem_set_self j.isLt
      · have before := (List.mem_append.mp inList).resolve_right fun last => here (List.mem_singleton.mp last)
        exact (Vector.getElem_set_ne i.isLt j.isLt fun same => here (Fin.ext same.symm)).trans
          (cleared j before)

theorem Bucket.reset_eq (b : Bucket) : b.reset = Bucket.empty := by
  obtain ⟨same, cleared⟩ := Bucket.foldl_clearFrame (List.finRange 8) ⟨0, 0, 0, 0, b.sampleFrames⟩
  rw [reset, same]
  refine congrArg (Bucket.mk 0 0 0 0) (Vector.ext fun j inRange => ?_)
  rw [Vector.getElem_replicate]
  exact cleared ⟨j, inRange⟩ (List.mem_finRange _)

theorem resetForTest_eq (mem : Memory) (b : Nat) :
    resetForTest st mem b = if b < st.buckets then Bucket.empty else mem b := by
  have loop : ∀ n, (List.range n).foldl (fun mem i => mem.modify i Bucket.reset) mem b =
      if b < n then Bucket.empty else mem b := by
    intro n
    induction n with
    | zero => rfl
    | succ n ih =>
        rw [List.range_succ, List.foldl_concat]
        by_cases here : b = n
        · subst here
          rw [if_pos (Nat.lt_succ_self b), Memory.modify_self, Bucket.reset_eq]
        · rw [Memory.modify_of_ne _ here, ih]
          exact if_congr (by omega) rfl rfl
  exact loop st.buckets

/-- A reset brings back the empty table. -/
theorem resetForTest_recordAll (init : st.Initialised env)
    (nonempty : ∀ e ∈ events, 1 ≤ e.1.count.val) :
    resetForTest st (recordAll st events) = Memory.empty := by
  obtain ⟨moves, s, run, shared, _, _⟩ := recordAll_exec init nonempty
  funext b
  rw [resetForTest_eq, ← shared]
  split
  · rfl
  · refine (sound_of_exec init run).1.blank b ?_
    by_contra claimed
    obtain ⟨c, inCalls, claimer⟩ := exists_claimer run claimed
    have := (((sound_of_exec init run).2 c inCalls).claimed claimer).1
    omega

/-! ## The frames of a known hash do not matter -/

/-- The hash is in the table, or the table is full. -/
def Memory.Settled (st : Statics) (mem : Memory) (h : U64) : Prop :=
  (∃ b, b < st.buckets ∧ (mem b).hash = h) ∨ ∀ b, b < st.buckets → (mem b).hash ≠ 0

/-- A search for a settled hash meets no free slot. -/
theorem Memory.Settled.claimed {idx : Nat} (settled : mem.Settled st c.hash) (masked : st.Masked)
    (memSound : mem.Sound st) (sound : c.Sound st mem) (pc : c.pc = .probe idx) : (mem idx).hash ≠ 0 := by
  simp only [RecordCall.Sound, pc] at sound
  obtain ⟨inRange, rfl, searched⟩ := sound
  rcases settled with ⟨b, below, held⟩ | full
  · intro free
    refine memSound.placed.absent inRange searched (Memory.keys_eq_none.mpr free) below ?_
    refine Memory.keys_eq_some.mpr ⟨?_, held⟩
    rw [held]
    exact Frames.hash_ne_zero _
  · exact full _ (slot_lt masked.buckets_pos)

theorem Memory.Settled.mono {h : U64} (settled : mem.Settled st h) (nonzero : h ≠ 0)
    (kept : mem.HashKept mem') : mem'.Settled st h := by
  rcases settled with ⟨b, below, held⟩ | full
  · exact .inl ⟨b, below, (kept b (by rwa [held])).trans held⟩
  · exact .inr fun b below => by
      rw [kept b (full b below)]
      exact full b below

/-- The call is searching, or has found its bucket. -/
def RecordPc.searching : RecordPc → Bool
  | .claim _ | .fill _ _ | .initCount _ | .initBytes _ | .publish _ => false
  | _ => true

def RecordCall.withFrames (c : RecordCall) (frames : Frames) : RecordCall := { c with frames }

theorem RecordCall.step_withFrames (same : frames.hash = c.hash) (searching : c.pc.searching = true) :
    (c.withFrames frames).step st mem = (c.step st mem).map fun p => (p.1, p.2.withFrames frames) := by
  have hash : (c.withFrames frames).hash = c.hash := same
  have home : (c.withFrames frames).start st = c.start st := by
    rw [start, hash, start]
  have advance : ∀ idx, (c.withFrames frames).advance st idx = c.advance st idx := by
    intro idx
    rw [RecordCall.advance, home, RecordCall.advance]
  unfold step
  simp only [withFrames] at hash home advance ⊢
  split <;> rename_i pc <;> simp only [pc, RecordPc.searching, Bool.false_eq_true] at searching
  case h_1 => split <;> rfl
  case h_3 => simp only [home, Option.map_some]
  case h_4 => simp only [hash, advance, Option.map_some]
  all_goals rfl

/-- A search that meets no free slot goes on as a search. -/
theorem RecordCall.Trans.searching (trans : RecordCall.Trans st mem c mem' c')
    (searching : c.pc.searching = true) (claimed : ∀ idx, c.pc = .probe idx → (mem idx).hash ≠ 0) :
    c'.pc.searching = true := by
  cases trans with
  | seeFree pc free => exact absurd free (claimed _ pc)
  | @seeOther idx _ _ _ =>
      rcases c.advance_cases st idx with eq | eq <;> rw [eq] <;> rfl
  | claim pc _ | loseToOwn pc _ | loseToOther pc _ _ | fill _ pc | fillLast _ pc | initCount pc
  | initBytes pc | publish pc =>
      rw [pc] at searching
      cases searching
  | _ => rfl

theorem RecordCall.finish_withFrames (init : st.Initialised env) (n : Nat) (memSound : mem.Sound st)
    (sound : c.Sound st mem) (settled : mem.Settled st c.hash) (same : frames.hash = c.hash)
    (searching : c.pc.searching = true) :
    (finish st n (mem, c.withFrames frames)).1 = (finish st n (mem, c)).1 := by
  induction n generalizing mem c with
  | zero => rfl
  | succ n ih =>
      cases stepped : c.step st mem with
      | none => simp only [finish, step_withFrames same searching, stepped, Option.map_none]
      | some p =>
          obtain ⟨mem', c'⟩ := p
          have trans := trans_of_step stepped
          obtain ⟨memSound', sound'⟩ := trans.sound init memSound sound
          have hash : c'.hash = c.hash := by rw [RecordCall.hash, trans.args.1, RecordCall.hash]
          have settled' := settled.mono (Frames.hash_ne_zero _) trans.hashKept
          simp only [finish, step_withFrames same searching, stepped, Option.map_some]
          exact ih memSound' sound' (hash ▸ settled') (same.trans hash.symm)
            (trans.searching searching fun idx => settled.claimed init.masked memSound sound)

/-- **Of a trace whose hash is settled, only the hash matters.** -/
theorem record_congr (init : st.Initialised env) (memSound : mem.Sound st)
    (nonempty : 1 ≤ frames.count.val) (nonempty' : 1 ≤ frames'.count.val)
    (same : frames'.hash = frames.hash) (settled : mem.Settled st frames.hash) (size : U64) :
    record st mem frames' size = record st mem frames size := by
  have begun : ∀ {frames : Frames}, 1 ≤ frames.count.val →
      RecordCall.init frames size = ⟨frames, size, 0, .loadBase⟩ := by
    intro frames some
    rw [RecordCall.init, if_neg (by omega)]
  rw [record, record, begun nonempty, begun nonempty']
  exact RecordCall.finish_withFrames (c := ⟨frames, size, 0, .loadBase⟩) init _ memSound rfl settled
    same rfl

/-- The hash of a recorded event is settled. -/
theorem settled_of_recorded (init : st.Initialised env) (nonempty : ∀ e ∈ events, 1 ≤ e.1.count.val)
    {e : Frames × U64} (inEvents : e ∈ events) :
    (recordAll st events).Sound st ∧ (recordAll st events).Settled st e.1.hash := by
  obtain ⟨moves, s, run, shared, quiescent, calls⟩ := recordAll_exec init nonempty
  rw [← shared]
  refine ⟨(sound_of_exec init run).1, ?_⟩
  rw [← calls] at inEvents
  obtain ⟨c, inCalls, rfl⟩ := List.mem_map.mp inEvents
  obtain ⟨outcome, pc⟩ := quiescent c inCalls
  rcases ((sound_of_exec init run).2 c inCalls).returned (frames_of_exec run c inCalls) pc with
    ⟨b, below, held, _⟩ | ⟨_, full⟩
  · exact .inl ⟨b, below, held⟩
  · exact .inr fun b below => (full b below).1

/-! ## The table stands for the store -/

/-- The store after these events. -/
def Store.ofEvents (cap : Nat) (events : List (Frames × U64)) : Store :=
  events.foldl (fun s e => s.record cap e.1.trace e.2) []

theorem Frames.trace_eq_nil_iff (f : Frames) : f.trace = [] ↔ f.count.val = 0 := by
  rw [← List.length_eq_zero_iff, f.length_trace]

theorem Store.known_of_unknown {s : Store} {trace : List U64}
    (unknown : ∀ site ∈ s, traceHash site.1 ≠ traceHash trace) : s.known trace = trace := by
  have none : s.find? (fun site => traceHash site.1 = traceHash trace) = none :=
    List.find?_eq_none.mpr fun site inStore => by simpa using unknown site inStore
  rw [known, none, Option.elim_none]

theorem Store.known_of_known {s : Store} {trace t : List U64} {site : List U64 × (U64 × U64)}
    (inStore : site ∈ s) (hash : traceHash site.1 = traceHash trace)
    (only : ∀ site ∈ s, traceHash site.1 = traceHash trace → site.1 = t) : s.known trace = t := by
  cases found : s.find? (fun site => traceHash site.1 = traceHash trace) with
  | none => exact absurd (decide_eq_true hash) (List.find?_eq_none.mp found site inStore)
  | some site' =>
      rw [known, found, Option.elim_some]
      exact only site' (List.mem_of_find?_eq_some found)
        (of_decide_eq_true (List.find?_some (p := fun site : List U64 × (U64 × U64) =>
          decide (traceHash site.1 = traceHash trace)) found))

/-- An event of a hash that has been seen is aggregated as the first of them. -/
theorem record_known {merged : List (Frames × U64)} {cap : Nat} (noCollision : NoCollision merged)
    {e f : Frames × U64} (seen : f ∈ merged) (same : f.1.hash = e.1.hash) :
    Aggregate.record cap (aggregate cap (merged.map siteEvent)) (f.1.trace, (1, e.2)) =
      Aggregate.record cap (aggregate cap (merged.map siteEvent))
        (Store.known (aggregate cap (merged.map siteEvent)) e.1.trace, (1, e.2)) := by
  have only : ∀ site ∈ aggregate cap (merged.map siteEvent), traceHash site.1 = traceHash e.1.trace →
      site.1 = f.1.trace := fun site inSites hash =>
    (trace_eq_of_hash noCollision (List.mem_map_of_mem inSites) seen
      (same.trans (e.1.hash_eq.trans hash.symm))).symm
  by_cases kept : f.1.trace ∈ (aggregate cap (merged.map siteEvent)).map Prod.fst
  · obtain ⟨site, inSites, trace⟩ := List.mem_map.mp kept
    rw [Store.known_of_known inSites (by rw [trace, ← f.1.hash_eq, same, e.1.hash_eq]) only]
  · -- neither trace has a place, and there is none left
    have unknown : ∀ site ∈ aggregate cap (merged.map siteEvent), traceHash site.1 ≠ traceHash e.1.trace :=
      fun site inSites hash => kept (only site inSites hash ▸ List.mem_map_of_mem inSites)
    have full : ¬ (aggregate cap (merged.map siteEvent)).length < cap := fun room =>
      kept (mem_keys_of_length_lt room (List.mem_map_of_mem seen))
    have other : e.1.trace ∉ (aggregate cap (merged.map siteEvent)).map Prod.fst := by
      intro inKeys
      obtain ⟨site, inSites, trace⟩ := List.mem_map.mp inKeys
      exact unknown site inSites (congrArg traceHash trace)
    rw [Store.known_of_unknown unknown, Aggregate.record, Aggregate.record, if_neg kept, if_neg other,
      if_neg full, if_neg full]

/-- Each trace goes by the first with its hash. -/
theorem exists_merged (init : st.Initialised env) (nonempty : ∀ e ∈ events, 1 ≤ e.1.count.val) :
    ∃ merged : List (Frames × U64), (∀ e ∈ merged, 1 ≤ e.1.count.val) ∧ NoCollision merged ∧
      recordAll st merged = recordAll st events ∧
      aggregate st.buckets (merged.map siteEvent) = Store.ofEvents st.buckets events := by
  induction events using List.reverseRecOn with
  | nil =>
      exact ⟨[], fun _ none => (List.not_mem_nil none).elim, fun _ none => (List.not_mem_nil none).elim,
        rfl, rfl⟩
  | append_singleton events e ih =>
      obtain ⟨merged, some, noCollision, table, store⟩ :=
        ih fun e' inEvents => nonempty e' (List.mem_append_left _ inEvents)
      have notEmpty : e.1.trace ≠ [] := by
        have := nonempty e (List.mem_append_right _ List.mem_cons_self)
        rw [Ne, e.1.trace_eq_nil_iff]
        omega
      have step : Store.ofEvents st.buckets (events ++ [e]) = Aggregate.record st.buckets
          (aggregate st.buckets (merged.map siteEvent))
          (Store.known (aggregate st.buckets (merged.map siteEvent)) e.1.trace, (1, e.2)) := by
        rw [Store.ofEvents, List.foldl_concat, ← Store.ofEvents, ← store, Store.record, if_neg notEmpty]
      have last : 1 ≤ e.1.count.val := nonempty e (List.mem_append_right _ List.mem_cons_self)
      have table' : ∀ f : Frames × U64, record st (recordAll st merged) f.1 f.2 =
          record st (recordAll st merged) e.1 e.2 →
            recordAll st (merged ++ [f]) = recordAll st (events ++ [e]) := by
        intro f same
        rw [recordAll, List.foldl_concat, ← recordAll, same, recordAll.eq_1 st (events ++ [e]),
          List.foldl_concat, ← recordAll, table]
      by_cases seen : ∃ f ∈ merged, f.1.hash = e.1.hash
      · obtain ⟨f, inMerged, same⟩ := seen
        have old : ∀ x ∈ merged ++ [(f.1, e.2)], ∃ y ∈ merged, y.1 = x.1 := by
          intro x inList
          rcases List.mem_append.mp inList with before | here
          · exact ⟨x, before, rfl⟩
          · exact ⟨f, inMerged, by rw [List.mem_singleton.mp here]⟩
        obtain ⟨memSound, settled⟩ := settled_of_recorded init some inMerged
        refine ⟨merged ++ [(f.1, e.2)], ?_, ?_, table' (f.1, e.2) ?_, ?_⟩
        · intro x inList
          obtain ⟨y, inMerged', eq⟩ := old x inList
          exact eq ▸ some y inMerged'
        · intro x inList x' inList' hash
          obtain ⟨y, inMerged', eq⟩ := old x inList
          obtain ⟨y', inMerged'', eq'⟩ := old x' inList'
          rw [← eq, ← eq'] at hash ⊢
          exact noCollision y inMerged' y' inMerged'' hash
        · exact record_congr init memSound last (some f inMerged) same (same ▸ settled) e.2
        · rw [step, List.map_append, List.map_singleton, aggregate_concat]
          exact record_known noCollision inMerged same
      · have fresh : ∀ x ∈ merged, x.1.hash ≠ e.1.hash := fun x inMerged same => seen ⟨x, inMerged, same⟩
        refine ⟨merged ++ [e], ?_, ?_, table' e rfl, ?_⟩
        · intro x inList
          rcases List.mem_append.mp inList with before | here
          · exact some x before
          · exact List.mem_singleton.mp here ▸ last
        · intro x inList x' inList' hash
          rcases List.mem_append.mp inList with before | here <;>
            rcases List.mem_append.mp inList' with before' | here'
          · exact noCollision x before x' before' hash
          · exact absurd (List.mem_singleton.mp here' ▸ hash) (fresh x before)
          · exact absurd (List.mem_singleton.mp here ▸ hash).symm (fresh x' before')
          · rw [List.mem_singleton.mp here, List.mem_singleton.mp here']
        · rw [step, List.map_append, List.map_singleton, aggregate_concat, Store.known_of_unknown]
          · rfl
          · intro site inSites hash
            obtain ⟨_, inMap, key⟩ := mem_of_mem_keys (List.mem_map_of_mem (f := Prod.fst) inSites)
            obtain ⟨x, inMerged, rfl⟩ := List.mem_map.mp inMap
            refine fresh x inMerged ?_
            rw [x.1.hash_eq, e.1.hash_eq, ← hash, ← key]
            rfl

/-- **The rows of the table are those of the store.** -/
theorem rowsBelow_perm_store (init : st.Initialised env) (nonempty : ∀ e ∈ events, 1 ≤ e.1.count.val) :
    (callSitesReport st (recordAll st events)).Perm
      ((Store.ofEvents st.buckets events).map siteRow) := by
  obtain ⟨merged, some, noCollision, table, store⟩ := exists_merged init nonempty
  rw [callSitesReport_eq init, ← table, ← store]
  exact rowsBelow_perm init some noCollision

/-- The table has come about by recording, and the store by recording the same. -/
def Stands (st : Statics) (mem : Memory) (s : Store) : Prop :=
  ∃ events, (∀ e ∈ events, 1 ≤ e.1.count.val) ∧ mem = recordAll st events ∧
    s = Store.ofEvents st.buckets events

theorem Stands.empty (st : Statics) : Stands st Memory.empty [] :=
  ⟨[], fun _ none => (List.not_mem_nil none).elim, rfl, rfl⟩

theorem Stands.record {s : Store} (stands : Stands st mem s) (frames : Frames) (size : U64) :
    Stands st (record st mem frames size) (s.record st.buckets frames.trace size) := by
  obtain ⟨events, some, rfl, rfl⟩ := stands
  by_cases none : frames.count.val = 0
  · rw [record_empty none, Store.record, if_pos (frames.trace_eq_nil_iff.mpr none)]
    exact ⟨events, some, rfl, rfl⟩
  · refine ⟨events ++ [(frames, size)], fun e inList => ?_, ?_, ?_⟩
    · rcases List.mem_append.mp inList with before | here
      · exact some e before
      · rw [List.mem_singleton.mp here]
        exact Nat.one_le_iff_ne_zero.mpr none
    · rw [recordAll, recordAll, List.foldl_concat]
    · rw [Store.ofEvents, Store.ofEvents, List.foldl_concat]

theorem Stands.reset {s : Store} (init : st.Initialised env) (stands : Stands st mem s) :
    Stands st (resetForTest st mem) [] := by
  obtain ⟨events, some, rfl, rfl⟩ := stands
  rw [resetForTest_recordAll init some]
  exact .empty st

theorem reports_of_stands (init : st.Initialised env) {s : Store} (stands : Stands st mem s)
    (ops : List TableOp) :
    List.Forall₂ (fun rows (s : Store) => rows.Perm (s.map siteRow)) (reports st mem ops)
      (s.reports st.buckets ops) := by
  induction ops generalizing mem s with
  | nil => exact .nil
  | cons op ops ih =>
      cases op with
      | record frames size => exact ih (stands.record frames size)
      | reset => exact ih (stands.reset init)
      | report =>
          refine .cons ?_ (ih stands)
          obtain ⟨events, some, rfl, rfl⟩ := stands
          exact rowsBelow_perm_store init some

/-- **The table refines the store**: any sequence of recordings, reports and resets returns
the reports of the store, whether or not hashes collide and the table overflows. -/
theorem reports_refine (init : st.Initialised env) (ops : List TableOp) :
    List.Forall₂ (fun rows (s : Store) => rows.Perm (s.map siteRow)) (reports st Memory.empty ops)
      (Store.reports st.buckets [] ops) :=
  reports_of_stands init (.empty st) ops

/-! Two traces with one hash, a report, a reset, and one more event. -/

def oneTrace : Frames := (Frames.empty.push 0x401000).push 0x402000

/-- The second frame makes up for the first. -/
def otherTrace : Frames :=
  (Frames.empty.push 0x405000).push
    (0x402000 ^^^ (hashRound 0 0x401000).rotateLeft 5 ^^^ (hashRound 0 0x405000).rotateLeft 5)

def collidingOps : List TableOp :=
  [.record oneTrace 16, .record otherTrace 8, .report, .reset, .record otherTrace 8, .report]

theorem reports_refine_colliding :
    List.Forall₂ (fun rows (s : Store) => rows.Perm (s.map siteRow))
        (reports raceStatics Memory.empty collidingOps)
        (Store.reports raceStatics.buckets [] collidingOps) ∧
      Store.reports raceStatics.buckets [] collidingOps =
        [[(oneTrace.trace, (2, 24))], [(otherTrace.trace, (1, 8))]] :=
  ⟨reports_refine raceStatics_initialised collidingOps, by decide⟩

end ModAlloc
