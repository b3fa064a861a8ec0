import ModAlloc.Backtrace.Walk
import ModAlloc.Backtrace.Sequential

/-!
# Reports do not depend on addresses

Events recorded one after another are aggregated by trace, with room for as many
traces as there are buckets (`report_aggregate`), as long as the hashes of the
traces do not collide. What the table works with, hashes and slots, does not show
in the report. So a re-mapping of the return addresses, which changes every hash and
every slot, does nothing to the report but re-map it (`report_remap`).
-/

namespace ModAlloc

open Interleaving Interleaving.Program Aggregate

variable {st : Statics} {env : Option (List Char)} {events : List (Frames × U64)}

/-- No two traces of the events have the same hash. -/
def NoCollision (events : List (Frames × U64)) : Prop :=
  ∀ e ∈ events, ∀ e' ∈ events, e.1.hash = e'.1.hash → e.1.trace = e'.1.trace

instance (events : List (Frames × U64)) : Decidable (NoCollision events) :=
  inferInstanceAs (Decidable (∀ e ∈ events, ∀ e' ∈ events, _))

/-- An event by its trace, with its count and its bytes. -/
def siteEvent (e : Frames × U64) : List U64 × (U64 × U64) := (e.1.trace, (1, e.2))

/-- The events that are recorded. -/
def siteEvents (events : List (Frames × U64)) : List (List U64 × (U64 × U64)) :=
  (events.filter fun e => 1 ≤ e.1.count.val).map siteEvent

/-- The row of a trace with its count and its bytes. -/
def siteRow (s : List U64 × (U64 × U64)) : CallSiteStats :=
  { frames := Vector.ofFn fun j => s.1.getD j 0
    frameCount := ⟨min s.1.length 8, Nat.lt_succ_of_le (Nat.min_le_right _ _)⟩
    count := s.2.1, totalBytes := s.2.2 }

/-! ## The buckets of the kept traces -/

/-- Recording one more event keeps the claimed buckets. -/
theorem recordAll_concat_exec (init : st.Initialised env) {e : Frames × U64}
    (nonempty : ∀ e' ∈ events ++ [e], 1 ≤ e'.1.count.val) :
    ∃ (moves : List (Move Call Unit)) (s : TableState),
      (tableProgram st).Exec withFrames TableState.empty moves s ∧
      s.shared = recordAll st (events ++ [e]) ∧ (recordAll st events).HashKept s.shared ∧
      s.calls.map RecordCall.event = events ++ [e] ∧
      ∃ c ∈ s.calls, c.event = e ∧ ∃ outcome, c.pc = .returned outcome := by
  obtain ⟨moves, s, run, shared, _, calls⟩ :=
    recordAll_exec init fun e' inEvents => nonempty e' (List.mem_append_left _ inEvents)
  obtain ⟨c, moves', rest, returned, event⟩ :=
    record_exec init run (nonempty e (List.mem_append_right _ List.mem_cons_self))
  refine ⟨_, _, run.append rest, ?_, ?_, ?_, c, ?_, event, returned⟩
  · rw [recordAll, List.foldl_concat, shared]
    rfl
  · exact shared ▸ hashKept_of_exec rest
  · simp only [TableState.calls, List.filterMap_append, List.map_append]
    exact congrArg₂ (· ++ ·) calls (congrArg (fun e => [e]) event)
  · exact mem_calls_iff.mpr (List.mem_append_right _ List.mem_cons_self)

theorem hash_of_event (c : RecordCall) : c.hash = traceHash c.event.1.trace := c.frames.hash_eq

/-- Calls have no more hashes than traces. -/
theorem card_hashes_le {calls : List RecordCall} {traces : List (List U64)}
    (known : ∀ d ∈ calls, d.event.1.trace ∈ traces) :
    (calls.map RecordCall.hash).toFinset.card ≤ traces.length := by
  have subset : (calls.map RecordCall.hash).toFinset ⊆ (traces.map traceHash).toFinset := by
    intro h inHashes
    obtain ⟨d, inCalls, rfl⟩ := List.mem_map.mp (List.mem_toFinset.mp inHashes)
    rw [hash_of_event]
    exact List.mem_toFinset.mpr (List.mem_map_of_mem (known d inCalls))
  calc (calls.map RecordCall.hash).toFinset.card
      ≤ (traces.map traceHash).toFinset.card := Finset.card_le_card subset
    _ ≤ (traces.map traceHash).length := List.toFinset_card_le _
    _ = traces.length := List.length_map _

/-- **Each trace that is kept has a bucket.** -/
theorem bucket_of_kept (init : st.Initialised env) (nonempty : ∀ e ∈ events, 1 ≤ e.1.count.val)
    {t : List U64}
    (kept : t ∈ (aggregate st.buckets (events.map siteEvent)).map Prod.fst) :
    ∃ b, b < st.buckets ∧ (recordAll st events b).hash = traceHash t := by
  induction events using List.reverseRecOn with
  | nil => cases kept
  | append_singleton events e ih =>
      obtain ⟨moves, s, run, shared, hashKept, calls, c, inCalls, event, outcome, returned⟩ :=
        recordAll_concat_exec init nonempty
      have ih := ih fun e' inEvents => nonempty e' (List.mem_append_left _ inEvents)
      have before : t ∈ (aggregate st.buckets (events.map siteEvent)).map Prod.fst →
          ∃ b, b < st.buckets ∧ (recordAll st (events ++ [e]) b).hash = traceHash t := by
        intro kept
        obtain ⟨b, inRange, held⟩ := ih kept
        have claimed : (recordAll st events b).hash ≠ 0 := by
          rw [held]
          exact traceHash_ne_zero t
        exact ⟨b, inRange, by rw [← shared, hashKept b claimed, held]⟩
      rw [List.map_append, List.map_singleton, aggregate_concat, keys_record] at kept
      split at kept
      · exact before kept
      · split at kept
        case isFalse.isTrue room =>
            rcases List.mem_append.mp kept with old | new
            · exact before old
            · obtain rfl := List.mem_singleton.mp new
              -- the traces so far, of which none has been dropped, and this one
              have known : ∀ d ∈ s.calls, d.event.1.trace ∈
                  (aggregate st.buckets (events.map siteEvent)).map Prod.fst ++ [e.1.trace] := by
                intro d inCalls
                have inEvents : d.event ∈ events ++ [e] := calls ▸ List.mem_map_of_mem inCalls
                rcases List.mem_append.mp inEvents with old | here
                · exact List.mem_append_left _
                    (mem_keys_of_length_lt room (List.mem_map_of_mem old))
                · rw [List.mem_singleton.mp here]
                  exact List.mem_append_right _ List.mem_cons_self
              have few := card_hashes_le known
              rw [List.length_append, List.length_map, List.length_singleton] at few
              rcases ((sound_of_exec init run).2 c inCalls).returned
                (frames_of_exec run c inCalls) returned with ⟨b, inRange, held, _⟩ | ⟨rfl, _⟩
              · refine ⟨b, inRange, ?_⟩
                rw [← shared, held, hash_of_event, event]
                rfl
              · have := buckets_lt_of_dropped init run inCalls returned
                omega
        case isFalse.isFalse => exact before kept

section Refinement

variable (init : st.Initialised env) (nonempty : ∀ e ∈ events, 1 ≤ e.1.count.val)
  (noCollision : NoCollision events)

include noCollision

/-- A trace of the events is the only one with its hash. -/
theorem trace_eq_of_hash {t : List U64} {cap : Nat}
    (kept : t ∈ (aggregate cap (events.map siteEvent)).map Prod.fst) {e : Frames × U64}
    (inEvents : e ∈ events) (same : e.1.hash = traceHash t) : e.1.trace = t := by
  obtain ⟨_, inMap, rfl⟩ := mem_of_mem_keys kept
  obtain ⟨e', inEvents', rfl⟩ := List.mem_map.mp inMap
  exact noCollision e inEvents e' inEvents' (same.trans e'.1.hash_eq.symm)

theorem traceHash_injOn {t t' : List U64} {cap : Nat}
    (kept : t ∈ (aggregate cap (events.map siteEvent)).map Prod.fst)
    (kept' : t' ∈ (aggregate cap (events.map siteEvent)).map Prod.fst)
    (same : traceHash t = traceHash t') : t = t' := by
  obtain ⟨_, inMap, rfl⟩ := mem_of_mem_keys kept
  obtain ⟨e, inEvents, rfl⟩ := List.mem_map.mp inMap
  exact trace_eq_of_hash noCollision kept' inEvents (e.1.hash_eq.trans same)

include init nonempty

/-- A bucket for each trace that is kept, different ones for different traces. -/
theorem exists_bucketOf : ∃ bucketOf : List U64 → Nat,
    (∀ t ∈ (aggregate st.buckets (events.map siteEvent)).map Prod.fst,
      bucketOf t < st.buckets ∧ (recordAll st events (bucketOf t)).hash = traceHash t) ∧
    ∀ t ∈ (aggregate st.buckets (events.map siteEvent)).map Prod.fst,
      ∀ t' ∈ (aggregate st.buckets (events.map siteEvent)).map Prod.fst,
        bucketOf t = bucketOf t' → t = t' := by
  have bucket : ∀ t, ∃ b, t ∈ (aggregate st.buckets (events.map siteEvent)).map Prod.fst →
      b < st.buckets ∧ (recordAll st events b).hash = traceHash t := by
    intro t
    by_cases kept : t ∈ (aggregate st.buckets (events.map siteEvent)).map Prod.fst
    · obtain ⟨b, holds⟩ := bucket_of_kept init nonempty kept
      exact ⟨b, fun _ => holds⟩
    · exact ⟨0, fun h => absurd h kept⟩
  choose bucketOf holds using bucket
  refine ⟨bucketOf, holds, fun t kept t' kept' same => ?_⟩
  apply traceHash_injOn noCollision kept kept'
  rw [← (holds t kept).2, ← (holds t' kept').2, same]

/-- **Each bucket is that of a trace that is kept**: the kept traces either are all
there are, or have taken all buckets. -/
theorem kept_of_bucket {b : Nat} (inRange : b < st.buckets)
    (claimed : (recordAll st events b).hash ≠ 0) :
    ∃ t ∈ (aggregate st.buckets (events.map siteEvent)).map Prod.fst,
      (recordAll st events b).hash = traceHash t := by
  rcases Nat.lt_or_ge (aggregate st.buckets (events.map siteEvent)).length st.buckets with room | full
  · obtain ⟨moves, s, run, shared, _, calls⟩ := recordAll_exec init nonempty
    rw [← shared] at claimed ⊢
    obtain ⟨d, inCalls, claimer⟩ := exists_claimer run claimed
    refine ⟨d.event.1.trace, ?_, ?_⟩
    · have inEvents : d.event ∈ events := calls ▸ List.mem_map_of_mem inCalls
      exact mem_keys_of_length_lt room (List.mem_map_of_mem inEvents)
    · rw [(((sound_of_exec init run).2 d inCalls).claimed claimer).2, hash_of_event]
  · obtain ⟨bucketOf, holds, injective⟩ := exists_bucketOf init nonempty noCollision
    have all : (((aggregate st.buckets (events.map siteEvent)).map Prod.fst).toFinset.image bucketOf) =
        Finset.range st.buckets := by
      refine Finset.eq_of_subset_of_card_le ?_ ?_
      · intro b inImage
        obtain ⟨t, inKeys, rfl⟩ := Finset.mem_image.mp inImage
        exact Finset.mem_range.mpr (holds t (List.mem_toFinset.mp inKeys)).1
      · rw [Finset.card_range, Finset.card_image_of_injOn, List.toFinset_card_of_nodup (nodup_keys _ _),
          List.length_map]
        · exact full
        · intro t inKeys t' inKeys' same
          exact injective t (List.mem_toFinset.mp inKeys) t' (List.mem_toFinset.mp inKeys') same
    obtain ⟨t, inKeys, rfl⟩ := Finset.mem_image.mp (all ▸ Finset.mem_range.mpr inRange)
    have kept := List.mem_toFinset.mp inKeys
    exact ⟨t, kept, (holds t kept).2⟩

omit nonempty in
/-- What a bucket has counted are the sums over the events with its trace. -/
theorem sums_eq {moves : List (Move Call Unit)} {s : TableState}
    (run : (tableProgram st).Exec withFrames TableState.empty moves s) (quiescent : s.Quiescent)
    (calls : s.calls.map RecordCall.event = events) {t : List U64} {b : Nat}
    (kept : t ∈ (aggregate st.buckets (events.map siteEvent)).map Prod.fst)
    (inRange : b < st.buckets) (held : (s.shared b).hash = traceHash t) :
    ((s.shared b).count, (s.shared b).totalBytes) = total (events.map siteEvent) t := by
  have claimed : (s.shared b).hash ≠ 0 := by
    rw [held]
    exact traceHash_ne_zero t
  have own : events.filter (fun e => e.1.trace = t) =
      (s.events (s.shared b).hash).map RecordCall.event := by
    rw [TableState.events, ← calls, List.filter_map]
    refine congrArg (List.map RecordCall.event) (List.filter_congr fun c inCalls => ?_)
    have inEvents : c.event ∈ events := calls ▸ List.mem_map_of_mem inCalls
    simp only [Function.comp_apply, decide_eq_decide, held]
    constructor
    · intro same
      rw [hash_of_event, same]
    · exact trace_eq_of_hash noCollision kept inEvents
  have sums : total (events.map siteEvent) t =
      (((s.events (s.shared b).hash).map fun _ => (1 : U64)).sum,
        ((s.events (s.shared b).hash).map RecordCall.size).sum) := by
    rw [total, List.filter_map, List.map_map, ← sum_map_prod]
    have sites : (fun e : List U64 × (U64 × U64) => decide (e.1 = t)) ∘ siteEvent =
        fun e => decide (e.1.trace = t) := rfl
    rw [sites, own, List.map_map]
    rfl
  rw [sums]
  refine Prod.ext (BitVec.eq_of_toNat_eq ?_) (BitVec.eq_of_toNat_eq ?_)
  · rw [count_eq init run quiescent inRange claimed, toNat_sum, List.map_map]
    have ones : BitVec.toNat ∘ (fun _ : RecordCall => (1 : U64)) = fun _ => 1 := rfl
    rw [ones, List.map_const', List.sum_replicate_nat, Nat.mul_one]
  · rw [totalBytes_eq init run quiescent inRange claimed, toNat_sum, List.map_map]
    rfl

/-- **The row of a bucket** is the row of its trace, with the sums of its events. -/
theorem rowAt_eq {t : List U64} {b : Nat}
    (kept : t ∈ (aggregate st.buckets (events.map siteEvent)).map Prod.fst)
    (inRange : b < st.buckets) (held : (recordAll st events b).hash = traceHash t) :
    rowAt (recordAll st events) b = some (siteRow (t, total (events.map siteEvent) t)) := by
  obtain ⟨moves, s, run, shared, quiescent, calls⟩ := recordAll_exec init nonempty
  rw [← shared] at held ⊢
  have claimed : (s.shared b).hash ≠ 0 := by
    rw [held]
    exact traceHash_ne_zero t
  -- the call that claimed the bucket, and what it left there
  obtain ⟨d, inCalls, claimer⟩ := exists_claimer run claimed
  obtain ⟨outcome, pc⟩ := quiescent d inCalls
  have own : d.frames.trace = t := by
    have same := (((sound_of_exec init run).2 d inCalls).claimed claimer).2
    refine trace_eq_of_hash noCollision kept (calls ▸ List.mem_map_of_mem inCalls) ?_
    exact same.symm.trans held
  have filled := filled_of_exec init run inCalls
  rw [pc] at claimer
  cases outcome with
  | claimed idx =>
      cases claimer
      simp only [RecordCall.Filled, pc] at filled
      obtain ⟨frames, frameCount⟩ := filled
      have some : 1 ≤ d.frames.count.val := frames_of_exec run d inCalls
      have bound := d.frames.count.isLt
      have toNat : (s.shared b).frameCount.toNat = d.frames.count := by
        rw [frameCount, BitVec.toNat_ofNat]
        exact Nat.mod_eq_of_lt (by omega)
      have published : (s.shared b).frameCount ≠ 0 := by
        intro zero
        rw [zero] at toNat
        exact absurd some (by rw [← toNat]; decide)
      have clamped : ScanCall.clampFrameCount (s.shared b).frameCount = d.frames.count := by
        refine Fin.ext ?_
        simp only [ScanCall.clampFrameCount, toNat]
        omega
      have length : (siteRow (t, total (events.map siteEvent) t)).frameCount = d.frames.count := by
        refine Fin.ext ?_
        simp only [siteRow, ← own, d.frames.length_trace]
        omega
      have sums := sums_eq init noCollision run quiescent calls kept inRange held
      simp only [rowAt, if_neg claimed, if_neg published, clamped, frames, firstFrames_firstFrames]
      rw [← d.frames.ofFn_trace, own, ← length, ← sums]
      rfl
  | _ => cases claimer

/-- The claimed buckets are those of the kept traces. -/
theorem claimed_perm {bucketOf : List U64 → Nat}
    (holds : ∀ t ∈ (aggregate st.buckets (events.map siteEvent)).map Prod.fst,
      bucketOf t < st.buckets ∧ (recordAll st events (bucketOf t)).hash = traceHash t)
    (injective : ∀ t ∈ (aggregate st.buckets (events.map siteEvent)).map Prod.fst,
      ∀ t' ∈ (aggregate st.buckets (events.map siteEvent)).map Prod.fst,
        bucketOf t = bucketOf t' → t = t') :
    ((List.range st.buckets).filter fun b => (recordAll st events b).hash ≠ 0).Perm
      (((aggregate st.buckets (events.map siteEvent)).map Prod.fst).map bucketOf) := by
  obtain ⟨moves, s, run, shared, _, _⟩ := recordAll_exec init nonempty
  rw [List.perm_ext_iff_of_nodup (List.nodup_range.filter _)
    ((nodup_keys _ _).map_on fun t kept t' kept' => injective t kept t' kept')]
  intro b
  simp only [List.mem_filter, List.mem_range, decide_eq_true_eq]
  constructor
  · rintro ⟨inRange, claimed⟩
    obtain ⟨t, kept, held⟩ := kept_of_bucket init nonempty noCollision inRange claimed
    obtain ⟨inRange', held'⟩ := holds t kept
    have own : b = bucketOf t := by
      rw [← shared] at claimed held held'
      exact hash_unique init run inRange inRange' claimed (held.trans held'.symm)
    exact own ▸ List.mem_map_of_mem kept
  · intro inMap
    obtain ⟨t, kept, rfl⟩ := List.mem_map.mp inMap
    obtain ⟨inRange, held⟩ := holds t kept
    refine ⟨inRange, ?_⟩
    rw [held]
    exact traceHash_ne_zero t

/-- **The report is the aggregation by trace.** -/
theorem rowsBelow_perm : (rowsBelow (recordAll st events) st.buckets).Perm
    ((aggregate st.buckets (events.map siteEvent)).map siteRow) := by
  obtain ⟨bucketOf, holds, injective⟩ := exists_bucketOf init nonempty noCollision
  have claimed : rowsBelow (recordAll st events) st.buckets =
      ((List.range st.buckets).filter fun b => (recordAll st events b).hash ≠ 0).filterMap
        (rowAt (recordAll st events)) := by
    rw [rowsBelow, List.filterMap_filter]
    refine List.filterMap_congr fun b _ => ?_
    by_cases free : (recordAll st events b).hash = 0
    · simp only [rowAt, free, if_true, ne_eq, not_true_eq_false, decide_false, Bool.false_eq_true,
        if_false]
    · simp only [free, ne_eq, not_false_eq_true, decide_true, if_true]
  have rows : ((((aggregate st.buckets (events.map siteEvent)).map Prod.fst).map bucketOf).filterMap
      (rowAt (recordAll st events))) = (aggregate st.buckets (events.map siteEvent)).map siteRow := by
    rw [List.map_map, List.filterMap_map, ← List.filterMap_eq_map (f := siteRow)]
    refine List.filterMap_congr fun s inSites => ?_
    have kept := List.mem_map_of_mem (f := Prod.fst) inSites
    obtain ⟨inRange, held⟩ := holds s.1 kept
    simp only [Function.comp_apply]
    rw [rowAt_eq init nonempty noCollision kept inRange held, ← value_aggregate inSites]
  rw [claimed, ← rows]
  exact (claimed_perm init nonempty noCollision holds injective).filterMap _

end Refinement

theorem NoCollision.filter (noCollision : NoCollision events) (p : Frames × U64 → Bool) :
    NoCollision (events.filter p) := fun e inEvents e' inEvents' =>
  noCollision e (List.mem_of_mem_filter inEvents) e' (List.mem_of_mem_filter inEvents')

/-- **Events recorded one after another are reported by trace**: the first `buckets`
distinct traces that are not empty, each with the sums of its events. -/
theorem report_aggregate (init : st.Initialised env) (noCollision : NoCollision events) :
    (callSitesReport st (recordAll st events)).Perm
      ((aggregate st.buckets (siteEvents events)).map siteRow) := by
  rw [callSitesReport_eq init, recordAll_filter]
  apply rowsBelow_perm init _ (noCollision.filter _)
  intro e inEvents
  exact of_decide_eq_true (List.mem_filter.mp inEvents).2

/-! ## Re-mapping the addresses -/

/-- `frames[..n]` re-mapped by `f`. -/
def remapFrames (f : U64 → U64) (frames : Vector U64 8) (n : Nat) : Vector U64 8 :=
  Vector.ofFn fun j => if j.val < n then f (frames.get j) else frames.get j

def Frames.remap (f : U64 → U64) (fr : Frames) : Frames :=
  { fr with frames := remapFrames f fr.frames fr.count }

def remapEvent (f : U64 → U64) (e : Frames × U64) : Frames × U64 := (e.1.remap f, e.2)

/-- A row with the frames of its trace re-mapped. -/
def CallSiteStats.remap (f : U64 → U64) (r : CallSiteStats) : CallSiteStats :=
  { r with frames := remapFrames f r.frames r.frameCount }

variable {f : U64 → U64}

theorem getElem_remapFrames (frames : Vector U64 8) (n : Nat) {j : Nat} (inRange : j < 8) :
    (remapFrames f frames n)[j] = if j < n then f frames[j] else frames[j] := by
  simp only [remapFrames, Vector.getElem_ofFn, Vector.get_eq_getElem]

theorem take_remapFrames (frames : Vector U64 8) (n : Nat) :
    (remapFrames f frames n).toList.take n = (frames.toList.take n).map f :=
  take_ofFn f frames frames n

theorem Frames.trace_remap (fr : Frames) : (fr.remap f).trace = fr.trace.map f :=
  take_remapFrames fr.frames fr.count

theorem CallSiteStats.trace_remap (r : CallSiteStats) : (r.remap f).trace = r.trace.map f :=
  take_remapFrames r.frames r.frameCount

theorem trace_siteRow {s : List U64 × (U64 × U64)} (short : s.1.length ≤ 8) :
    (siteRow s).trace = s.1 := by
  have length : (siteRow s).trace.length = s.1.length := by
    simp only [CallSiteStats.trace, siteRow, List.length_take, Vector.length_toList]
    omega
  refine List.ext_getElem length fun j h₁ h₂ => ?_
  simp only [CallSiteStats.trace, siteRow, List.getElem_take, Vector.getElem_toList,
    Vector.getElem_ofFn, List.getD_eq_getElem?_getD, List.getElem?_eq_getElem h₂, Option.getD_some]

theorem siteRow_map {s : List U64 × (U64 × U64)} (short : s.1.length ≤ 8) :
    siteRow (Prod.map (List.map f) id s) = (siteRow s).remap f := by
  have frames : (siteRow (Prod.map (List.map f) id s)).frames = ((siteRow s).remap f).frames := by
    refine Vector.ext fun j inRange => ?_
    simp only [CallSiteStats.remap, getElem_remapFrames, siteRow, Prod.map_fst, Vector.getElem_ofFn,
      List.getD_eq_getElem?_getD, List.getElem?_map]
    split
    case isTrue inTrace =>
        rw [List.getElem?_eq_getElem (by omega), Option.map_some, Option.getD_some, Option.getD_some]
    case isFalse behind =>
        rw [List.getElem?_eq_none (by omega), Option.map_none, Option.getD_none]
  simp only [siteRow, CallSiteStats.remap, Prod.map_fst, Prod.map_snd, id_eq, List.length_map] at frames ⊢
  rw [frames]

theorem siteEvents_remap (events : List (Frames × U64)) :
    siteEvents (events.map (remapEvent f)) = (siteEvents events).map (Prod.map (List.map f) id) := by
  rw [siteEvents, siteEvents, List.filter_map, List.map_map, List.map_map]
  refine List.map_congr_left fun e _ => ?_
  exact congrArg (·, (1, e.2)) e.1.trace_remap

/-- The traces that are recorded, in order. -/
def recordedTraces (events : List (Frames × U64)) : List (List U64) :=
  (events.map fun e => e.1.trace).filter (· ≠ [])

theorem map_siteEvents_fst (events : List (Frames × U64)) :
    (siteEvents events).map Prod.fst = recordedTraces events := by
  rw [recordedTraces, siteEvents, List.map_map, List.filter_map]
  refine congrArg (List.map fun e : Frames × U64 => e.1.trace) (List.filter_congr fun e _ => ?_)
  have empty := List.length_eq_zero_iff (l := e.1.trace)
  rw [e.1.length_trace] at empty
  simp only [Function.comp_apply, decide_eq_decide, ne_eq, ← empty]
  omega

theorem length_le_of_site {s : List U64 × (U64 × U64)} {cap : Nat}
    (inSites : s ∈ aggregate cap (siteEvents events)) : s.1.length ≤ 8 := by
  obtain ⟨_, inMap, same⟩ := mem_of_mem_keys (List.mem_map_of_mem inSites)
  obtain ⟨e, _, rfl⟩ := List.mem_map.mp inMap
  rw [← same, siteEvent, e.1.length_trace]
  omega

/-- The sites of the report are the first `buckets` distinct traces. -/
theorem report_traces (init : st.Initialised env) (noCollision : NoCollision events) :
    ((callSitesReport st (recordAll st events)).map CallSiteStats.trace).Perm
      ((recordedTraces events).eraseDups.take st.buckets) := by
  have traces : ((aggregate st.buckets (siteEvents events)).map siteRow).map CallSiteStats.trace =
      (recordedTraces events).eraseDups.take st.buckets := by
    rw [← map_siteEvents_fst, ← keys_aggregate, List.map_map]
    exact List.map_congr_left fun s inSites => trace_siteRow (length_le_of_site inSites)
  rw [← traces]
  exact (report_aggregate init noCollision).map _

/-- **Re-mapping the addresses re-maps the report and changes nothing else**, whatever
it does to hashes, slots and probe chains: the rows are the same up to their order,
and also when the table overflows, the sites are the first `buckets` distinct traces. -/
theorem report_remap (init : st.Initialised env) (injective : Function.Injective f)
    (noCollision : NoCollision events) (noCollision' : NoCollision (events.map (remapEvent f))) :
    (callSitesReport st (recordAll st (events.map (remapEvent f)))).Perm
        ((callSitesReport st (recordAll st events)).map (CallSiteStats.remap f)) ∧
      ((callSitesReport st (recordAll st events)).map CallSiteStats.trace).Perm
        ((recordedTraces events).eraseDups.take st.buckets) ∧
      ((callSitesReport st (recordAll st (events.map (remapEvent f)))).map CallSiteStats.trace).Perm
        (((recordedTraces events).eraseDups.take st.buckets).map (List.map f)) := by
  have rows : (callSitesReport st (recordAll st (events.map (remapEvent f)))).Perm
      ((callSitesReport st (recordAll st events)).map (CallSiteStats.remap f)) := by
    have original := (report_aggregate init noCollision).map (CallSiteStats.remap f)
    have remapped := report_aggregate init noCollision'
    have same : ((aggregate st.buckets (siteEvents events)).map (Prod.map (List.map f) id)).map siteRow =
        ((aggregate st.buckets (siteEvents events)).map siteRow).map (CallSiteStats.remap f) := by
      rw [List.map_map, List.map_map]
      exact List.map_congr_left fun s inSites => siteRow_map (length_le_of_site inSites)
    rw [siteEvents_remap, aggregate_map injective.list_map, same] at remapped
    exact remapped.trans original.symm
  refine ⟨rows, report_traces init noCollision, ?_⟩
  have traces := (report_traces init noCollision).map (List.map f)
  rw [List.map_map] at traces
  have remapped := rows.map CallSiteStats.trace
  rw [List.map_map] at remapped
  have same : CallSiteStats.trace ∘ CallSiteStats.remap f = List.map f ∘ CallSiteStats.trace :=
    funext CallSiteStats.trace_remap
  rw [same] at remapped
  exact remapped.trans traces

/-- Three events of two traces, and the same program loaded elsewhere. -/
def loadedEvents : List (Frames × U64) :=
  [((Frames.empty.push 0x401000).push 0x402000, 16), (Frames.empty.push 0x403000, 32),
    ((Frames.empty.push 0x401000).push 0x402000, 8)]

theorem report_remap_shift :
    let st : Statics := ⟨0x100000, 4096, 4095⟩
    let shift : U64 → U64 := (· + 0x7f0000000000)
    (callSitesReport st (recordAll st (loadedEvents.map (remapEvent shift)))).Perm
        ((callSitesReport st (recordAll st loadedEvents)).map (CallSiteStats.remap shift)) ∧
      ((callSitesReport st (recordAll st loadedEvents)).map CallSiteStats.trace).Perm
        ((recordedTraces loadedEvents).eraseDups.take st.buckets) ∧
      ((callSitesReport st (recordAll st (loadedEvents.map (remapEvent shift)))).map
          CallSiteStats.trace).Perm
        (((recordedTraces loadedEvents).eraseDups.take st.buckets).map (List.map shift)) :=
  report_remap (show Statics.Initialised _ none from ⟨by decide, rfl, rfl⟩)
    (add_left_injective _) (by decide) (by decide)

end ModAlloc
