import ModAlloc.Snapshot
import ModAlloc.Backtrace.Report
import ModAlloc.DhatCompat.Profiler

/-!
# The heap document of a running program

`dhat_json_string` drains the table while calls go on, its own allocations among them,
and renders what it has drained. The document, read back, is an account of the run: each
site is a call that claimed a bucket, with the frames of its trace and with counts
between those at the beginning and those at the end (`document_faithful`). Drained from
a program at rest, all of it together is no less than what had been counted before, and
no more than what has been counted since (`document_accounts`). Both are about an
initialised table in which no count has wrapped.
-/

namespace ModAlloc

open Interleaving Interleaving.Program DhatJson

variable {backtraces : Bool} {st : Statics} {env : Option (List Char)}
  {moves moves' : List (Move (Nat × Request) Answer)} {s₀ s : AllocState}
  {ok : AllocState → Move (Nat × Request) Answer → Prop}
  {tableMoves tableMoves' : List (Move Call Unit)} {t₀ t : TableState} {out : List CallSiteStats}
  {row : CallSiteStats} {b : Nat} {c : RecordCall}

/-! ## Draining the table -/

/-- One step of a scan that is made beside the calls. -/
def AllocWorld.drain (st : Statics) (w : AllocWorld) (r : ScanCall) : Option ScanCall :=
  r.step st w.table.shared

/-- The table goes on as a table. -/
theorem tableExec_of_exec (rest : (allocProgram backtraces st).Exec ok s₀ moves s) :
    ∃ tableMoves, (tableProgram st).Exec withFrames s₀.shared.table tableMoves s.shared.table := by
  refine Exec.sharedRel (R := fun w w' : AllocWorld =>
      ∃ tableMoves, (tableProgram st).Exec withFrames w.table tableMoves w'.table)
    (fun w => ⟨[], .nil _⟩) ?_ ?_ ?_ rest
  · rintro w w' w'' ⟨left, run⟩ ⟨right, run'⟩
    exact ⟨left ++ right, run.append run'⟩
  · intro w i arg w' c started
    obtain ⟨rfl, rfl⟩ := allocProgram_start started
    exact ⟨[], .nil _⟩
  · intro w i c a w' c' acted
    rcases (allocProgram_act acted).2.tableMove with same | ⟨m, cond, stepped⟩
    · exact ⟨[], same ▸ .nil _⟩
    · exact ⟨[m], .cons cond stepped (.nil _)⟩

/-- A drain of the table, or of a `view` of it in which the scan makes the same steps; the
view grows and counts what is published in tables that `fits` holds of. -/
theorem viewSound_of_observes {r : ScanCall} (view : Memory → Memory) (seen : ScanCall → ScanCall)
    (fits : TableState → Prop)
    (before : ∀ {t t' : TableState} {ms}, (tableProgram st).Exec withFrames t ms t' → fits t' → fits t)
    (grows : ∀ {t t' : TableState} {ms ms'}, (tableProgram st).Exec withFrames TableState.empty ms t →
      (tableProgram st).Exec withFrames t ms' t' → fits t' → (view t.shared).Grows (view t'.shared))
    (counted : ∀ {t : TableState} {ms}, (tableProgram st).Exec withFrames TableState.empty ms t →
      fits t → ∀ b, (view t.shared b).frameCount ≠ 0 →
        (view t.shared b).hash ≠ 0 ∧ 1 ≤ (view t.shared b).count.toNat)
    (steps : ∀ {mem r r'}, ScanCall.Trans st mem r r' → ScanCall.Trans st (view mem) (seen r) (seen r'))
    (begins : seen .init = .init)
    (run : (allocProgram backtraces st).Exec ok AllocState.initial moves s₀)
    (obs : Observes (allocProgram backtraces st) ok (AllocWorld.drain st) s₀ .init moves' s r)
    (holds : fits s.shared.table) :
    (seen r).Sound st (view s₀.shared.table.shared) (view s.shared.table.shared) := by
  obtain ⟨_, tableRun⟩ := table_of_exec run
  induction obs with
  | start =>
      rw [begins]
      exact rfl
  | @read s r r' ms sofar reading ih =>
      obtain ⟨_, tableRest⟩ := tableExec_of_exec sofar.exec
      exact (steps (ScanCall.trans_of_step reading)).sound (grows tableRun tableRest holds)
        (counted (tableRun.append tableRest) holds) (ih holds)
  | @move s s' r ms m sofar cond stepped ih =>
      obtain ⟨_, tableRest⟩ := tableExec_of_exec sofar.exec
      obtain ⟨_, one⟩ := tableExec_of_exec
        (.cons cond stepped (.nil s') : (allocProgram backtraces st).Exec ok s [m] s')
      exact (ih (before one holds)).mono (grows (tableRun.append tableRest) one holds)

theorem scanSound_of_observes {r : ScanCall} (init : st.Initialised env)
    (run : (allocProgram backtraces st).Exec ok AllocState.initial moves s₀)
    (obs : Observes (allocProgram backtraces st) ok (AllocWorld.drain st) s₀ .init moves' s r)
    (bounded : s.shared.table.Bounded) : r.Sound st s₀.shared.table.shared s.shared.table.shared :=
  viewSound_of_observes id id TableState.Bounded
    (fun rest bounded => bounded.before rest) (fun run rest => grows_of_exec init run rest)
    (fun run bounded _ published => counted_of_published init run bounded published)
    (fun trans => trans) rfl run obs bounded

/-! ## The sites of a document -/

/-- The site lists the bucket that `c` has claimed, as it was at some moment between
`t₀` and `t`. -/
structure DhatJson.Site.Lists (t₀ t : TableState) (c : RecordCall) (site : Site) : Prop where
  frames : site.frames = c.frames.trace.map formatRawFrame
  counted : 1 ≤ site.count
  count_ge : ((t₀.returnedEvents c.hash).length : ℤ) ≤ site.count
  count_le : site.count ≤ ((t.events c.hash).length : ℤ)
  bytes_ge : (((t₀.returnedEvents c.hash).map fun d => d.size.toNat).sum : ℕ) ≤ site.totalBytes
  bytes_le : site.totalBytes ≤ (t.eventBytes c.hash : ℤ)

theorem DhatJson.formatRawFrame_injective : Function.Injective formatRawFrame := by
  intro addr addr' same
  have read := congrArg readAddress same
  rw [formatRawFrame, formatRawFrame, readAddress_formatAddress, readAddress_formatAddress] at read
  exact BitVec.eq_of_toNat_eq (Option.some.inj read)

theorem CallSiteStats.hash_eq (row : CallSiteStats) : row.hash = traceHash row.trace := by
  rw [hash, hashFrames_eq, trace]

/-- The call that claimed a bucket is the only one. -/
theorem claimer_eq (run : (tableProgram st).Exec withFrames TableState.empty tableMoves t)
    {c d : RecordCall} (inCalls : c ∈ t.calls) (inCalls' : d ∈ t.calls)
    (claimer : c.pc.claimedSlot = some b) (claimer' : d.pc.claimedSlot = some b) : c = d := by
  obtain ⟨i, at_i⟩ := mem_procs_iff.mp (mem_calls_iff.mp inCalls)
  obtain ⟨j, at_j⟩ := mem_procs_iff.mp (mem_calls_iff.mp inCalls')
  obtain rfl := claimer_unique run at_i at_j claimer claimer'
  exact Proc.record.inj (Option.some.inj (at_i.symm.trans at_j))

section Table

variable (init : st.Initialised env)
  (run : (tableProgram st).Exec withFrames TableState.empty tableMoves t₀)
  (rest : (tableProgram st).Exec withFrames t₀ tableMoves' t) (bounded : t.Bounded)

include init run rest bounded

/-- A copy of a bucket lists the call that claimed the bucket. -/
theorem RowOf.lists (copy : RowOf t₀.shared t.shared b row) (inCalls : c ∈ t.calls)
    (pc : c.pc = .returned (.claimed b)) : (rawRow row).site.Lists t₀ t c := by
  obtain ⟨_, _, d, inCalls', pc', length, frames⟩ := copy.claimer init (run.append rest)
  obtain rfl : d = c := by
    refine claimer_eq (run.append rest) inCalls' inCalls (b := b) ?_ ?_
    · rw [pc']
      rfl
    · rw [pc]
      rfl
  have trace := CallSiteStats.trace_eq length frames
  have hash : row.hash = d.hash := by rw [row.hash_eq, trace, RecordCall.hash, Frames.hash_eq]
  have faithful := copy.faithful init run rest bounded
  have count := faithful.count
  have bytes := faithful.bytes
  rw [hash] at count bytes
  rw [DhatCompat.site_rawRow]
  exact ⟨congrArg (List.map formatRawFrame) trace, Int.ofNat_le.mpr count.1,
    Int.ofNat_le.mpr count.2.1, Int.ofNat_le.mpr count.2.2, Int.ofNat_le.mpr bytes.1,
    Int.ofNat_le.mpr bytes.2⟩

omit bounded in
/-- The rows of a drain have different traces, and there are no more of them than buckets. -/
theorem Rows.traces (rows : Rows t₀.shared t.shared st.buckets out) :
    (out.map CallSiteStats.trace).Nodup ∧ out.length ≤ st.buckets := by
  refine ⟨?_, rows.length_le⟩
  obtain ⟨bs, sorted, below, _, copies⟩ := rows
  refine List.pairwise_map.mpr (pairwise_of_forall₂ ?_ copies sorted)
  intro a b x y copy copy' less same
  obtain ⟨inRange, held, _⟩ := copy.claimer init (run.append rest)
  obtain ⟨inRange', held', _⟩ := copy'.claimer init (run.append rest)
  have claimed : (t.shared a).hash ≠ 0 := by
    rw [held]
    exact hashFrames_ne_zero _ _
  have := hash_unique init (run.append rest) inRange inRange' claimed
    (by rw [held, held', x.hash_eq, y.hash_eq, same])
  omega

/-- A call that has claimed a bucket and returned by the start of a drain is listed. -/
theorem Rows.lists (rows : Rows t₀.shared t.shared st.buckets out) (inCalls : c ∈ t₀.calls)
    (pc : c.pc = .returned (.claimed b)) : ∃ row ∈ out, (rawRow row).site.Lists t₀ t c := by
  have inRange : b < st.buckets :=
    (((sound_of_exec init run).2 c inCalls).claimed (by rw [pc]; rfl)).1
  have published := (filled_of_exec init run inCalls).frameCount_ne_zero (frames_of_exec run c inCalls) pc
  obtain ⟨bs, _, _, complete, copies⟩ := rows
  obtain ⟨row, inRows, copy⟩ := exists_mem_of_forall₂ copies.flip (complete b inRange published)
  have later := TableState.returned_stays inCalls (by rw [pc]; rfl) rest
  exact ⟨row, inRows, RowOf.lists init run rest bounded copy later pc⟩

omit bounded in
/-- A drain after this one shows each row again, with counts that are no smaller. -/
theorem Rows.later {t₁ t₂ : TableState} {moves₁ moves₂ : List (Move Call Unit)}
    {out' : List CallSiteStats} (rows : Rows t₀.shared t.shared st.buckets out)
    (between : (tableProgram st).Exec withFrames t moves₁ t₁)
    (rest' : (tableProgram st).Exec withFrames t₁ moves₂ t₂) (bounded' : t₁.Bounded)
    (rows' : Rows t₁.shared t₂.shared st.buckets out') (inRows : row ∈ out) :
    ∃ row' ∈ out', row'.trace = row.trace ∧ row.count.toNat ≤ row'.count.toNat ∧
      row.totalBytes.toNat ≤ row'.totalBytes.toNat := by
  obtain ⟨bs, _, below, _, copies⟩ := rows
  obtain ⟨bs', _, _, complete', copies'⟩ := rows'
  have run' := run.append rest
  have run₁ := run'.append between
  have grows := grows_of_exec init run' between bounded'
  obtain ⟨b, inBs, copy⟩ := exists_mem_of_forall₂ copies inRows
  have published : (t₁.shared b).frameCount ≠ 0 := by
    rw [(grows.published b copy.published).2]
    exact copy.published
  obtain ⟨row', inRows', copy'⟩ :=
    exists_mem_of_forall₂ copies'.flip (complete' b (below b inBs) published)
  obtain ⟨_, _, c, inCalls, pc, length, frames⟩ := copy.claimer init run'
  obtain ⟨_, _, d, inCalls', pc', length', frames'⟩ := copy'.claimer init (run₁.append rest')
  have later := TableState.returned_stays inCalls (by rw [pc]; rfl) (between.append rest')
  have same : d = c :=
    claimer_eq (run₁.append rest') inCalls' later (b := b) (by rw [pc']; rfl) (by rw [pc]; rfl)
  refine ⟨row', inRows', ?_, ?_, ?_⟩
  · rw [CallSiteStats.trace, CallSiteStats.trace, frames, frames', length, length', same]
  · exact copy.count_le.trans ((grows.count b).trans copy'.count_ge)
  · exact copy.bytes_le.trans ((grows.totalBytes b).trans copy'.bytes_ge)

end Table

theorem rows_of_observes {r : ScanCall} (init : st.Initialised env)
    (run : (allocProgram backtraces st).Exec ok AllocState.initial moves s₀)
    (obs : Observes (allocProgram backtraces st) ok (AllocWorld.drain st) s₀ .init moves' s r)
    (returned : r.pc = .returned) (bounded : s.shared.table.Bounded) :
    Rows s₀.shared.table.shared s.shared.table.shared st.buckets r.out := by
  have sound := scanSound_of_observes init run obs bounded
  simp only [ScanCall.Sound, returned] at sound
  exact sound

/-- The sites of the rows drained. -/
theorem readSites_drained (init : st.Initialised env) (few : out.length ≤ st.buckets)
    (args : List (List Char)) (pid : U32) :
    readSites (dhatJsonString args pid (.raw out)) = some (out.map fun row => (rawRow row).site) := by
  rw [readSites_dhatJsonString args pid (strings_few_of_rows (few.trans init.buckets_le)), Report.rows,
    List.map_map]
  rfl

/-- **The heap document of a running program.** It lists no trace twice, each site is a call
that has claimed a bucket, and every call that had done so when the drain began is
listed; a document drained later lists each site again, with counts that are no smaller. -/
theorem document_faithful {r r' : ScanCall} {s₁ s₂ : AllocState}
    {moves₁ moves₂ : List (Move (Nat × Request) Answer)} (init : st.Initialised env)
    (run : (allocProgram backtraces st).Exec ok AllocState.initial moves s₀)
    (obs : Observes (allocProgram backtraces st) ok (AllocWorld.drain st) s₀ .init moves' s r)
    (between : (allocProgram backtraces st).Exec ok s moves₁ s₁)
    (obs' : Observes (allocProgram backtraces st) ok (AllocWorld.drain st) s₁ .init moves₂ s₂ r')
    (returned : r.pc = .returned) (returned' : r'.pc = .returned)
    (bounded : s₂.shared.table.Bounded) (args args' : List (List Char)) (pid pid' : U32) :
    ∃ sites sites', readSites (dhatJsonString args pid (.raw r.out)) = some sites ∧
      readSites (dhatJsonString args' pid' (.raw r'.out)) = some sites' ∧
      (sites.map Site.frames).Nodup ∧
      (∀ site ∈ sites, ∃ c ∈ s.shared.table.calls, (∃ b, c.pc = .returned (.claimed b)) ∧
        site.Lists s₀.shared.table s.shared.table c) ∧
      (∀ c ∈ s₀.shared.table.calls, ∀ b, c.pc = .returned (.claimed b) →
        ∃ site ∈ sites, site.Lists s₀.shared.table s.shared.table c) ∧
      ∀ site ∈ sites, ∃ site' ∈ sites', site'.frames = site.frames ∧ site.count ≤ site'.count ∧
        site.totalBytes ≤ site'.totalBytes := by
  obtain ⟨_, tableRun⟩ := table_of_exec run
  obtain ⟨_, rest⟩ := tableExec_of_exec obs.exec
  obtain ⟨_, mid⟩ := tableExec_of_exec between
  obtain ⟨_, rest'⟩ := tableExec_of_exec obs'.exec
  have bounded₁ := bounded.before rest'
  have boundedHere := bounded₁.before mid
  have rows := rows_of_observes init run obs returned boundedHere
  have rows' := rows_of_observes init ((run.append obs.exec).append between) obs' returned' bounded
  obtain ⟨nodup, few⟩ := rows.traces init tableRun rest
  obtain ⟨_, few'⟩ := rows'.traces init ((tableRun.append rest).append mid) rest'
  refine ⟨_, _, readSites_drained init few args pid, readSites_drained init few' args' pid', ?_, ?_, ?_, ?_⟩
  · have frames : (r.out.map fun row => (rawRow row).site).map Site.frames =
        (r.out.map CallSiteStats.trace).map (List.map formatRawFrame) := by
      rw [List.map_map, List.map_map]
      exact List.map_congr_left fun row _ => by rw [Function.comp_apply, DhatCompat.site_rawRow]; rfl
    rw [frames]
    exact nodup.map formatRawFrame_injective.list_map
  · intro site inSites
    obtain ⟨row, inRows, rfl⟩ := List.mem_map.mp inSites
    obtain ⟨bs, _, _, _, copies⟩ := rows
    obtain ⟨b, _, copy⟩ := exists_mem_of_forall₂ copies inRows
    obtain ⟨_, _, c, inCalls, pc, _⟩ := copy.claimer init (tableRun.append rest)
    exact ⟨c, inCalls, ⟨b, pc⟩, copy.lists init tableRun rest boundedHere inCalls pc⟩
  · intro c inCalls b pc
    obtain ⟨row, inRows, lists⟩ := rows.lists init tableRun rest boundedHere inCalls pc
    exact ⟨_, List.mem_map_of_mem inRows, lists⟩
  · intro site inSites
    obtain ⟨row, inRows, rfl⟩ := List.mem_map.mp inSites
    obtain ⟨row', inRows', trace, count, bytes⟩ :=
      rows.later init tableRun rest mid rest' bounded₁ rows' inRows
    refine ⟨_, List.mem_map_of_mem inRows', ?_, Int.ofNat_le.mpr count, Int.ofNat_le.mpr bytes⟩
    rw [DhatCompat.site_rawRow, DhatCompat.site_rawRow, trace]

/-! A block of 16 bytes has been allocated and grown; while the table is drained, a second
block is allocated from the same place. Then the table is drained again. -/

def drainEvents : List (Option (Move (Nat × Request) Answer)) :=
  List.replicate 30 none ++
    (.start (0, .alloc 32) :: .act 2 (.bare 0x3000) :: List.replicate 16 (.act 2 oneFrame)).map some ++
    List.replicate 41 none

def drainEnd : AllocState × ScanCall :=
  ((allocProgram true raceStatics).observe Nesting (AllocWorld.drain raceStatics) reconcileEnd .init
    drainEvents).get (by decide)

theorem drainObserved : Observes (allocProgram true raceStatics) Nesting (AllocWorld.drain raceStatics)
    reconcileEnd .init ([] ++ drainEvents.reduceOption) drainEnd.1 drainEnd.2 :=
  .of_observe .start (Option.some_get (by decide)).symm

def laterEvents : List (Option (Move (Nat × Request) Answer)) := List.replicate 71 none

def laterEnd : AllocState × ScanCall :=
  ((allocProgram true raceStatics).observe Nesting (AllocWorld.drain raceStatics) drainEnd.1 .init
    laterEvents).get (by decide)

theorem laterObserved : Observes (allocProgram true raceStatics) Nesting (AllocWorld.drain raceStatics)
    drainEnd.1 .init ([] ++ laterEvents.reduceOption) laterEnd.1 laterEnd.2 := by
  have observed : (allocProgram true raceStatics).observe Nesting (AllocWorld.drain raceStatics)
      drainEnd.1 .init laterEvents = some laterEnd := (Option.some_get _).symm
  exact .of_observe .start (observed.trans (congrArg some Prod.mk.eta.symm))

theorem document_faithful_later :
    ∃ sites sites', readSites (dhatJsonString [] 1 (.raw drainEnd.2.out)) = some sites ∧
      readSites (dhatJsonString [] 1 (.raw laterEnd.2.out)) = some sites' ∧
      ∀ site ∈ sites, ∃ site' ∈ sites', site'.frames = site.frames ∧ site.count ≤ site'.count ∧
        site.totalBytes ≤ site'.totalBytes := by
  obtain ⟨sites, sites', isRead, isRead', _, _, _, later⟩ :=
    document_faithful raceStatics_initialised reconcileRun drainObserved (.nil _) laterObserved
      (by decide) (by decide) ⟨by decide, by decide⟩ [] [] 1 1
  exact ⟨sites, sites', isRead, isRead', later⟩

/-! ## The document as a whole -/

/-- With no call in progress, none is on the table. -/
theorem tableQuiescent (run : (allocProgram backtraces st).Exec ok AllocState.initial moves s)
    (quiescent : s.Quiescent) : s.shared.table.Quiescent := by
  intro c inCalls
  obtain ⟨k, at_k⟩ := mem_procs_iff.mp (mem_calls_iff.mp inCalls)
  have isSite := (sites_perm run).mem_iff.mpr
    (List.mem_range.mpr (List.getElem?_eq_some_iff.mp at_k).1)
  obtain ⟨d, inProcs, site⟩ := List.mem_filterMap.mp isSite
  obtain ⟨i, at_i⟩ := mem_procs_iff.mp inProcs
  obtain ⟨r, at_k', _, done⟩ := linked_of_exec run i d at_i k site
  obtain rfl := Proc.record.inj (Option.some.inj (at_k.symm.trans at_k'))
  exact RecordPc.isReturned_iff.mp (done (.inr (quiescent d inProcs)))

/-- With no call in progress, the claimer of a bucket has returned. -/
theorem TableState.Quiescent.claimed (quiescent : t.Quiescent) (inCalls : c ∈ t.calls)
    (claimer : c.pc.claimedSlot = some b) : c.pc = .returned (.claimed b) := by
  obtain ⟨outcome, pc⟩ := quiescent c inCalls
  rw [pc] at claimer ⊢
  cases outcome with
  | claimed idx =>
      cases claimer
      rfl
  | matched idx | dropped | skipped => cases claimer

/-- A table at rest has nothing in buckets that are not published. -/
theorem empty_of_unpublished (init : st.Initialised env)
    (run : (tableProgram st).Exec withFrames TableState.empty tableMoves t) (quiescent : t.Quiescent)
    (unpublished : (t.shared b).frameCount = 0) : t.shared b = Bucket.empty := by
  refine (sound_of_exec init run).1.blank b ?_
  by_contra claimed
  obtain ⟨c, inCalls, claimer⟩ := exists_claimer run claimed
  exact (filled_of_exec init run inCalls).frameCount_ne_zero (frames_of_exec run c inCalls)
    (quiescent.claimed inCalls claimer) unpublished

/-- What a call has on the table and what is missed of it are no more than its event,
wherever it stands. -/
theorem onTable_add_missed_le (run : (allocProgram backtraces st).Exec Nesting AllocState.initial moves s)
    {slot : RecordPc → Option Nat} (dropped : slot (.returned .dropped) = none) (weight : U64 → Nat) :
    ∀ c ∈ s.procs,
      c.onTable s.shared.table (Proc.tally (fun r => (slot r.pc).isSome) fun r => weight r.size) +
          (if (c.missed s.shared.table && c.counted) = true then weight c.request.size else 0) ≤
        if c.counted = true then weight c.request.size else 0 := by
  intro c inProcs
  obtain ⟨i, at_i⟩ := mem_procs_iff.mp inProcs
  cases site : c.site with
  | none =>
      simp only [AllocCall.onTable, site, Option.elim_none, AllocCall.missed, Bool.true_and,
        Nat.zero_add, le_refl]
  | some k =>
      obtain ⟨r, at_k, size, _⟩ := linked_of_exec run i c at_i k site
      have counted := AllocCall.counted_of_site ((numbered_of_exec run).wellFormed i c at_i).progress
        ((guarded_of_exec run).2 i c at_i) site
      simp only [AllocCall.onTable, site, Option.elim_some, at_k, Proc.tally, AllocCall.missed, counted,
        Bool.and_true, decide_eq_true_eq, if_true, size]
      by_cases isDropped : r.pc = .returned .dropped
      · simp only [isDropped, dropped, Option.isSome_none, Bool.false_eq_true, if_false, if_true,
          Nat.zero_add, le_refl]
      · rw [if_neg isDropped, Nat.add_zero]
        split
        · exact le_rfl
        · exact Nat.zero_le _

/-- The table has no more than what was not missed, at any time. -/
theorem tally_add_missed_le (run : (allocProgram backtraces st).Exec Nesting AllocState.initial moves s)
    (slot : RecordPc → Option Nat) (dropped : slot (.returned .dropped) = none) (weight : U64 → Nat) :
    s.shared.table.tally (fun r => (slot r.pc).isSome) (fun r => weight r.size) +
        (s.missed.map fun c => weight c.request.size).sum ≤
      (s.counted.map fun c => weight c.request.size).sum := by
  rw [TableState.tally_procs, ← sum_onTable run, AllocState.missed, AllocState.counted,
    List.filter_filter, ← sum_map_ite, ← sum_map_ite, ← List.sum_map_add]
  exact List.sum_le_sum (onTable_add_missed_le run dropped weight)

/-- The buckets together, in a field of which none has wrapped. -/
theorem sum_field (init : st.Initialised env)
    (run : (tableProgram st).Exec withFrames TableState.empty tableMoves t) {field : Bucket → U64}
    {slot : RecordPc → Option Nat} {weight : RecordCall → Nat}
    (counted : ∀ {pc b}, slot pc = some b → RecordPc.countedSlot pc = some b)
    (tallied : ∀ b, (field (t.shared b)).toNat = t.tally (fun c => slot c.pc = some b) weight) :
    ∑ b ∈ Finset.range st.buckets, (field (t.shared b)).toNat =
      t.tally (fun c => (slot c.pc).isSome) weight := by
  rw [Finset.sum_congr rfl fun b _ => tallied b]
  exact sum_slots _ _ fun r inCalls b held => (((sound_of_exec init run).2 r inCalls).counted (counted held)).1

/-- A sum over the rows of a drain lies between those over the buckets when it began and when
it ended. -/
theorem Rows.sum_between (rows : Rows t₀.shared t.shared st.buckets out) (field : Bucket → U64)
    (value : CallSiteStats → U64)
    (between : ∀ b row, RowOf t₀.shared t.shared b row →
      (field (t₀.shared b)).toNat ≤ (value row).toNat ∧ (value row).toNat ≤ (field (t.shared b)).toNat)
    (empty : field Bucket.empty = 0)
    (unpublished : ∀ b, (t₀.shared b).frameCount = 0 → t₀.shared b = Bucket.empty) :
    ∑ b ∈ Finset.range st.buckets, (field (t₀.shared b)).toNat ≤ (out.map fun row => (value row).toNat).sum ∧
      (out.map fun row => (value row).toNat).sum ≤
        ∑ b ∈ Finset.range st.buckets, (field (t.shared b)).toNat := by
  obtain ⟨bs, sorted, below, complete, copies⟩ := rows
  have nodup : bs.Nodup := sorted.imp Nat.ne_of_lt
  have subset : bs.toFinset ⊆ Finset.range st.buckets := fun b inBs =>
    Finset.mem_range.mpr (below b (List.mem_toFinset.mp inBs))
  have sums : ∀ mem : Memory, (bs.map fun b => (field (mem b)).toNat).sum =
      ∑ b ∈ bs.toFinset, (field (mem b)).toNat := fun mem => (List.sum_toFinset _ nodup).symm
  refine ⟨?_, ?_⟩
  · have seen : ∑ b ∈ bs.toFinset, (field (t₀.shared b)).toNat =
        ∑ b ∈ Finset.range st.buckets, (field (t₀.shared b)).toNat := by
      refine Finset.sum_subset subset fun b inRange unseen => ?_
      have blank : (t₀.shared b).frameCount = 0 := by
        by_contra published
        exact unseen (List.mem_toFinset.mpr (complete b (Finset.mem_range.mp inRange) published))
      rw [unpublished b blank, empty]
      rfl
    rw [← seen, ← sums]
    exact (List.forall₂_map_left_iff.mpr (List.forall₂_map_right_iff.mpr
      (copies.imp fun b row copy => (between b row copy).1))).sum_le_sum
  · refine le_trans ?_ (Finset.sum_le_sum_of_subset subset)
    rw [← sums]
    exact (List.forall₂_map_left_iff.mpr (List.forall₂_map_right_iff.mpr
      (copies.flip.imp fun row b copy => (between b row copy).2))).sum_le_sum

/-- **The heap document against the calls.** Drained from a program in which no call was in
progress, the document and what had been missed make up what was counted by then; the
document and what has been missed since are not more than what has been counted since. -/
theorem document_accounts {r : ScanCall} (init : st.Initialised env)
    (run : (allocProgram true st).Exec Nesting AllocState.initial moves s₀) (quiescent : s₀.Quiescent)
    (obs : Observes (allocProgram true st) Nesting (AllocWorld.drain st) s₀ .init moves' s r)
    (returned : r.pc = .returned) (bounded : s.shared.table.Bounded) (args : List (List Char))
    (pid : U32) :
    ∃ sites, readSites (dhatJsonString args pid (.raw r.out)) = some sites ∧
      ((s₀.counted.length : ℤ) ≤ (sites.map Site.count).sum + s₀.missed.length ∧
        (sites.map Site.count).sum + s.missed.length ≤ s.counted.length) ∧
      (((s₀.counted.map fun c => c.request.size.toNat).sum : ℕ) ≤
          (sites.map Site.totalBytes).sum + ((s₀.missed.map fun c => c.request.size.toNat).sum : ℕ) ∧
        (sites.map Site.totalBytes).sum + ((s.missed.map fun c => c.request.size.toNat).sum : ℕ) ≤
          ((s.counted.map fun c => c.request.size.toNat).sum : ℕ)) ∧
      (s₀.shared.counters .allocCount).toNat ≤ (sites.map Site.count).sum + s₀.missed.length := by
  obtain ⟨_, tableRun⟩ := table_of_exec run
  obtain ⟨_, rest⟩ := tableExec_of_exec obs.exec
  have bounded₀ := bounded.before rest
  have rows := rows_of_observes init run obs returned bounded
  obtain ⟨_, few⟩ := rows.traces init tableRun rest
  have atRest := tableQuiescent run quiescent
  have blank : ∀ b, (s₀.shared.table.shared b).frameCount = 0 → s₀.shared.table.shared b = Bucket.empty :=
    fun b => empty_of_unpublished init tableRun atRest
  -- the counts
  have counts := rows.sum_between Bucket.count CallSiteStats.count
    (fun b row copy => ⟨copy.count_ge, copy.count_le⟩) rfl blank
  rw [sum_field init tableRun id (bounded₀.count tableRun),
    sum_field init (tableRun.append rest) id (bounded.count (tableRun.append rest))] at counts
  have events := tally_add_missed init run quiescent (fun sound frames _ pc => (sound.slots frames pc).1)
    fun _ => 1
  have events' := tally_add_missed_le (run.append obs.exec) RecordPc.countedSlot rfl fun _ => 1
  simp only [List.map_const', List.sum_replicate_nat, Nat.mul_one] at events events'
  -- the bytes
  have bytes := rows.sum_between Bucket.totalBytes CallSiteStats.totalBytes
    (fun b row copy => ⟨copy.bytes_ge, copy.bytes_le⟩) rfl blank
  rw [sum_field init tableRun RecordPc.countedSlot_of_summedSlot (bounded₀.totalBytes tableRun),
    sum_field init (tableRun.append rest) RecordPc.countedSlot_of_summedSlot
      (bounded.totalBytes (tableRun.append rest))] at bytes
  have sizes := tally_add_missed init run quiescent (fun sound frames _ pc => (sound.slots frames pc).2)
    BitVec.toNat
  have sizes' := tally_add_missed_le (run.append obs.exec) RecordPc.summedSlot rfl BitVec.toNat
  have allocCount : (s₀.shared.counters .allocCount).toNat = s₀.counted.length % 2 ^ 64 := by
    rw [counters_account rfl run, sum_effect_allocCount run quiescent, toNat_intCast]
    omega
  have sumCount : ((r.out.map fun row => (rawRow row).site).map Site.count).sum =
      ((r.out.map fun row => row.count.toNat).sum : ℕ) := by
    rw [List.map_map, Nat.cast_list_sum, List.map_map]
    rfl
  have sumBytes : ((r.out.map fun row => (rawRow row).site).map Site.totalBytes).sum =
      ((r.out.map fun row => row.totalBytes.toNat).sum : ℕ) := by
    rw [List.map_map, Nat.cast_list_sum, List.map_map]
    rfl
  refine ⟨_, readSites_drained init few args pid, ?_⟩
  rw [sumCount, sumBytes]
  refine ⟨⟨?_, ?_⟩, ⟨?_, ?_⟩, ?_⟩ <;> omega

theorem document_accounts_one :
    ∃ sites, readSites (dhatJsonString [] 1 (.raw drainEnd.2.out)) = some sites ∧
      (2 : ℤ) ≤ (sites.map Site.count).sum + 1 ∧ (sites.map Site.count).sum + 1 ≤ 3 := by
  obtain ⟨sites, isRead, ⟨ge, le⟩, _⟩ := document_accounts raceStatics_initialised reconcileRun (by decide)
    drainObserved (by decide) ⟨by decide, by decide⟩ [] 1
  have counted : reconcileEnd.counted.length = 2 ∧ reconcileEnd.missed.length = 1 := by decide
  have counted' : drainEnd.1.counted.length = 3 ∧ drainEnd.1.missed.length = 1 := by decide
  rw [counted.1, counted.2] at ge
  rw [counted'.1, counted'.2] at le
  exact ⟨sites, isRead, ge, le⟩

end ModAlloc
