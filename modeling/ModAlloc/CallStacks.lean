import ModAlloc.Backtrace.Chain
import ModAlloc.Document

/-!
# The stacks behind a document

From the frame pointer to the document: the frames that a heap document shows for a call
site are the return addresses on the stack of a call of the run, and the stack of every
call that was recorded before the drain is shown, as itself or as one that has the same
hash (`document_stacks`). A scan copies the counts and does not look at them, so that this
holds however many events there are.
-/

namespace ModAlloc

open Interleaving Interleaving.Program DhatJson

variable {backtraces : Bool} {st : Statics} {env : Option (List Char)}
  {moves moves' : List (Move (Nat × Request) Answer)} {s₀ s s' : AllocState}
  {w w' : AllocWorld} {c c' d : AllocCall}
  {a : Answer} {stack : List U64}

/-- What call `i` finds on its stack when it comes to capture: the return addresses of the
chain of frames from its frame pointer, up to eight of them. -/
def StackOf (backtraces : Bool) (st : Statics) (moves : List (Move (Nat × Request) Answer)) (i : Nat)
    (stack : List U64) : Prop :=
  ∃ before a after s c, moves = before ++ .act i a :: after ∧
    (allocProgram backtraces st).Exec Nesting AllocState.initial before s ∧ s.procs[i]? = some c ∧
    c.pc = .capture ∧ ∃ bounds chain, a.bounds = some bounds ∧
      FrameChain a.words bounds a.fp chain ∧ chain ≠ [] ∧
      stack = (chain.take 8).map fun fp => a.words (fp + 8)

theorem StackOf.append {i : Nat} (isStack : StackOf backtraces st moves i stack)
    (later : List (Move (Nat × Request) Answer)) : StackOf backtraces st (moves ++ later) i stack := by
  obtain ⟨before, a, after, s, c, rfl, rest⟩ := isStack
  exact ⟨before, a, after ++ later, s, c, List.append_assoc .., rest⟩

/-- What is captured is the stack. -/
theorem stackOf_of_capture {i : Nat} {frames : Frames}
    (run : (allocProgram backtraces st).Exec Nesting AllocState.initial moves s)
    (at_i : s.procs[i]? = some c) (pc : c.pc = .capture)
    (captured : captureEvent a.fp a.bounds a.words = some frames) :
    StackOf backtraces st (moves ++ [.act i a]) i frames.trace := by
  unfold captureEvent at captured
  split at captured
  case isTrue => cases captured
  split at captured
  case h_1 => cases captured
  case h_2 bounds isBounds =>
      dsimp only at captured
      split at captured
      case isTrue => cases captured
      case isFalse nonempty =>
          cases captured
          obtain ⟨chain, isChain⟩ := exists_frameChain a.words bounds a.fp
          have room : Frames.empty.count.val + maxFrames ≤ 8 := Nat.le_refl 8
          have trace : (walk a.words a.fp bounds).trace =
              (chain.take 8).map fun fp => a.words (fp + 8) := walkLoop_trace room isChain
          refine ⟨moves, a, [], s, c, rfl, run, at_i, pc, bounds, chain, isBounds, isChain, ?_, trace⟩
          rintro rfl
          refine nonempty ?_
          rw [← Frames.length_trace, trace]
          rfl

/-- A step of a call that captures, or one that leaves its place on the table as it is. -/
theorem AllocCall.site_cases (stepped : c.step backtraces st w a = some (w', c')) :
    c'.site = c.site ∨ ∃ frames, c.pc = .capture ∧
      captureEvent a.fp a.bounds a.words = some frames ∧ c'.site = some w.table.procs.length ∧
      w'.table.procs[w.table.procs.length]? = some (.record (.init frames c.request.size)) := by
  obtain ⟨top, trans⟩ := AllocCall.trans_of_step stepped
  cases trans with
  | captured pc nonempty started =>
      right
      unfold AllocCall.step at stepped
      rw [if_neg (not_not.mpr top)] at stepped
      simp only [pc] at stepped
      cases captured : captureEvent a.fp a.bounds a.words with
      | none =>
          simp only [captured, Option.some.injEq, Prod.mk.injEq, AllocCall.mk.injEq, reduceCtorEq,
            and_false] at stepped
      | some frames =>
          simp only [captured] at stepped
          obtain ⟨table, started', eq⟩ := Option.map_eq_some_iff.mp stepped
          obtain ⟨m, p, start, rfl⟩ := step_start started'
          obtain ⟨_, rfl⟩ := tableProgram_start start
          cases eq
          exact ⟨frames, pc, rfl, rfl, List.getElem?_concat_length⟩
  | _ => exact .inl rfl

/-- A process on the table keeps its frames. -/
theorem record_frames_kept {table table' : TableState} {m : Move Call Unit}
    (stepped : (tableProgram st).step table m = some table') {k : Nat} {r : RecordCall}
    (at_k : table.procs[k]? = some (.record r)) :
    ∃ r' : RecordCall, table'.procs[k]? = some (.record r') ∧ r'.frames = r.frames := by
  rcases step_getElem? stepped at_k with ⟨kept, _⟩ | ⟨_, p, _, acted, kept⟩
  · exact ⟨r, kept, rfl⟩
  · rcases tableProgram_act acted with ⟨r₀, r', eq, rfl, trans⟩ | ⟨_, _, eq, _⟩
    · cases eq
      exact ⟨r', kept, trans.args.1⟩
    · cases eq

theorem AllocCall.Trans.frames_kept (trans : AllocCall.Trans backtraces st w c w' c') {k : Nat}
    {r : RecordCall} (at_k : w.table.procs[k]? = some (.record r)) :
    ∃ r' : RecordCall, w'.table.procs[k]? = some (.record r') ∧ r'.frames = r.frames := by
  rcases trans.tableMove with same | ⟨m, _, stepped⟩
  · exact ⟨r, same ▸ at_k, rfl⟩
  · exact record_frames_kept stepped at_k

/-- **A call records its stack.** -/
theorem stackOf_of_exec (run : (allocProgram backtraces st).Exec Nesting AllocState.initial moves s) {i k : Nat}
    (at_i : s.procs[i]? = some c) (site : c.site = some k) :
    ∃ r : RecordCall, s.shared.table.procs[k]? = some (.record r) ∧
      StackOf backtraces st moves i r.frames.trace := by
  refine Exec.snocInduction (motive := fun moves s => ∀ (i k : Nat) (c : AllocCall), s.procs[i]? = some c →
    c.site = some k → ∃ r : RecordCall, s.shared.table.procs[k]? = some (.record r) ∧
      StackOf backtraces st moves i r.frames.trace) ?_ ?_ run i k c at_i site
  · intro i k c at_i
    cases at_i
  · intro moves s m s' run _ stepped recorded i k c at_i site
    have before : ∀ {d : AllocCall}, s.procs[i]? = some d → d.site = some k →
        ∃ r : RecordCall, s'.shared.table.procs[k]? = some (.record r) ∧
          StackOf backtraces st (moves ++ [m]) i r.frames.trace := by
      intro d at_i site
      obtain ⟨r, at_k, isStack⟩ := recorded i k d at_i site
      cases m with
      | start arg =>
          obtain ⟨w, c, started, rfl⟩ := step_start stepped
          obtain ⟨rfl, rfl⟩ := allocProgram_start started
          exact ⟨r, at_k, isStack.append _⟩
      | act j a =>
          obtain ⟨_, w, _, _, acted, rfl⟩ := step_act stepped
          obtain ⟨r', at_k', frames⟩ := (allocProgram_act acted).2.frames_kept at_k
          exact ⟨r', at_k', frames ▸ isStack.append _⟩
    rcases step_procs stepped at_i with old | ⟨rfl, arg, rfl, started⟩ | ⟨a, c₀, rfl, at_i₀, acted⟩
    · exact before old site
    · obtain ⟨_, rfl⟩ := allocProgram_start started
      cases site
    · rcases AllocCall.site_cases acted with same | ⟨frames, pc, captured, new, at_k⟩
      · exact before at_i₀ (same ▸ site)
      · obtain rfl := Option.some.inj (new.symm.trans site)
        exact ⟨_, at_k, stackOf_of_capture run at_i₀ pc captured⟩

/-- Every process on the table has been started by a call. -/
theorem exists_stackOf (run : (allocProgram backtraces st).Exec Nesting AllocState.initial moves s)
    {r : RecordCall} (inCalls : r ∈ s.shared.table.calls) :
    ∃ i, StackOf backtraces st moves i r.frames.trace := by
  obtain ⟨k, at_k⟩ := mem_procs_iff.mp (mem_calls_iff.mp inCalls)
  have isSite := (sites_perm run).mem_iff.mpr
    (List.mem_range.mpr (List.getElem?_eq_some_iff.mp at_k).1)
  obtain ⟨c, inProcs, site⟩ := List.mem_filterMap.mp isSite
  obtain ⟨i, at_i⟩ := mem_procs_iff.mp inProcs
  obtain ⟨r', at_k', isStack⟩ := stackOf_of_exec run at_i site
  obtain rfl := Proc.record.inj (Option.some.inj (at_k.symm.trans at_k'))
  exact ⟨i, isStack⟩

/-! ## The counts do not steer a scan -/

/-- The bucket with one event of no bytes. -/
def Bucket.uncounted (b : Bucket) : Bucket := { b with count := 1, totalBytes := 0 }

def Memory.uncounted (mem : Memory) : Memory := fun b => (mem b).uncounted

def CallSiteStats.uncounted (row : CallSiteStats) : CallSiteStats :=
  { row with count := 1, totalBytes := 0 }

def ScanPc.uncounted : ScanPc → ScanPc
  | .loadBytes i n frames _ => .loadBytes i n frames 1
  | pc => pc

/-- The scan as it would be of a table without counts. -/
def ScanCall.uncounted (r : ScanCall) : ScanCall :=
  ⟨r.out.map CallSiteStats.uncounted, r.pc.uncounted⟩

theorem ScanCall.uncounted_loop (out : List CallSiteStats) (i : Nat) :
    ScanCall.uncounted ⟨out, loop st i⟩ = ⟨out.map CallSiteStats.uncounted, loop st i⟩ := by
  unfold loop
  split <;> rfl

/-- **A scan makes the same steps of a table without counts.** -/
theorem ScanCall.Trans.uncounted {mem : Memory} {r r' : ScanCall} (trans : ScanCall.Trans st mem r r') :
    ScanCall.Trans st mem.uncounted r.uncounted r'.uncounted := by
  have at_pc : ∀ {pc : ScanPc}, r.pc = pc → r.uncounted.pc = pc.uncounted := congrArg ScanPc.uncounted
  cases trans with
  | loadBase pc nonnull => exact .loadBase (at_pc pc) nonnull
  | loadBuckets pc => exact .loadBuckets (at_pc pc)
  | loadMask pc =>
      rw [uncounted_loop]
      exact .loadMask (at_pc pc)
  | skipFree pc free =>
      rw [uncounted_loop]
      exact .skipFree (at_pc pc) free
  | seeHash pc claimed => exact .seeHash (at_pc pc) claimed
  | skipUnpublished pc unset =>
      rw [uncounted_loop]
      exact .skipUnpublished (at_pc pc) unset
  | seePublished pc published => exact .seePublished (at_pc pc) published
  | loadFrame more pc => exact .loadFrame more (at_pc pc)
  | loadLastFrame last pc => exact .loadLastFrame last (at_pc pc)
  | loadCount pc => exact .loadCount (at_pc pc)
  | loadBytes pc =>
      rw [uncounted_loop, List.map_append, List.map_singleton]
      exact .loadBytes (at_pc pc)

/-- A table without counts grows, however many events there are. -/
theorem uncounted_grows {tableMoves tableMoves' : List (Move Call Unit)} {t₀ t : TableState}
    (init : st.Initialised env) (run : (tableProgram st).Exec withFrames TableState.empty tableMoves t₀)
    (rest : (tableProgram st).Exec withFrames t₀ tableMoves' t) :
    t₀.shared.uncounted.Grows t.shared.uncounted :=
  ⟨fun _ published => published_kept init run rest published, fun _ => le_rfl, fun _ => le_rfl⟩

theorem uncounted_of_published {tableMoves : List (Move Call Unit)} {t : TableState}
    (init : st.Initialised env) (run : (tableProgram st).Exec withFrames TableState.empty tableMoves t)
    (b : Nat) (published : (t.shared.uncounted b).frameCount ≠ 0) :
    (t.shared.uncounted b).hash ≠ 0 ∧ 1 ≤ (t.shared.uncounted b).count.toNat := by
  obtain ⟨c, inCalls, pc, _⟩ := published_of_exec init run published
  have held := (((sound_of_exec init run).2 c inCalls).claimed (by rw [pc]; rfl)).2
  exact ⟨held ▸ Frames.hash_ne_zero _, le_rfl⟩

theorem uncountedSound_of_observes {r : ScanCall} (init : st.Initialised env)
    (run : (allocProgram backtraces st).Exec Nesting AllocState.initial moves s₀)
    (obs : Observes (allocProgram backtraces st) Nesting (AllocWorld.drain st) s₀ .init moves' s r) :
    r.uncounted.Sound st s₀.shared.table.shared.uncounted s.shared.table.shared.uncounted :=
  viewSound_of_observes Memory.uncounted ScanCall.uncounted (fun _ => True) (fun _ _ => trivial)
    (fun run rest _ => uncounted_grows init run rest) (fun run _ => uncounted_of_published init run)
    ScanCall.Trans.uncounted rfl run obs trivial

/-- But for their counts, the rows drained are copies of buckets. -/
theorem uncountedRows_of_observes {r : ScanCall} (init : st.Initialised env)
    (run : (allocProgram backtraces st).Exec Nesting AllocState.initial moves s₀)
    (obs : Observes (allocProgram backtraces st) Nesting (AllocWorld.drain st) s₀ .init moves' s r)
    (returned : r.pc = .returned) :
    Rows s₀.shared.table.shared.uncounted s.shared.table.shared.uncounted st.buckets
      (r.out.map CallSiteStats.uncounted) := by
  have sound := uncountedSound_of_observes init run obs
  simp only [ScanCall.Sound, ScanCall.uncounted, returned, ScanPc.uncounted] at sound
  exact sound

theorem RowOf.copies_of_uncounted {first mem : Memory} {b : Nat} {row : CallSiteStats}
    (copy : RowOf first mem.uncounted b row.uncounted) : row.Copies mem b :=
  ⟨copy.published, copy.frameCount, copy.frames⟩

/-! ## The stacks of a document -/

theorem frames_rawRow {row : CallSiteStats} {d : RecordCall} (length : row.frameCount = d.frames.count)
    (frames : row.frames = firstFrames d.frames.frames d.frames.count) :
    (rawRow row).site.frames = d.frames.trace.map formatRawFrame := by
  rw [DhatCompat.site_rawRow]
  exact congrArg (List.map formatRawFrame) (CallSiteStats.trace_eq length frames)

/-- A row of a drain from rest, for every hash that has been recorded. -/
theorem Rows.shows_hash {out : List CallSiteStats} {tableMoves tableMoves' : List (Move Call Unit)}
    {t₀ t : TableState} (init : st.Initialised env)
    (run : (tableProgram st).Exec withFrames TableState.empty tableMoves t₀)
    (rest : (tableProgram st).Exec withFrames t₀ tableMoves' t)
    (rows : Rows t₀.shared.uncounted t.shared.uncounted st.buckets (out.map CallSiteStats.uncounted))
    (quiescent : t₀.Quiescent) {r : RecordCall} (inCalls : r ∈ t₀.calls)
    (kept : r.pc ≠ .returned .dropped) :
    ∃ row ∈ out, ∃ d ∈ t₀.calls, (rawRow row).site.frames = d.frames.trace.map formatRawFrame ∧
      traceHash d.frames.trace = traceHash r.frames.trace := by
  obtain ⟨memory, calls⟩ := sound_of_exec init run
  obtain ⟨outcome, pc⟩ := quiescent r inCalls
  rcases (calls r inCalls).returned (frames_of_exec run r inCalls) pc with
    ⟨b, _, held, _⟩ | ⟨rfl, _⟩
  · have claimed : (t₀.shared b).hash ≠ 0 := by
      rw [held]
      exact hashFrames_ne_zero _ _
    obtain ⟨d, isCall, claimer⟩ := exists_claimer run claimed
    have claimedHere := quiescent.claimed isCall claimer
    have sound := (calls d isCall).claimed claimer
    have published := (filled_of_exec init run isCall).frameCount_ne_zero
      (frames_of_exec run d isCall) claimedHere
    obtain ⟨bs, _, _, complete, copies⟩ := rows
    obtain ⟨_, inMap, copy⟩ := exists_mem_of_forall₂ copies.flip (complete b sound.1 published)
    obtain ⟨row, inRows, rfl⟩ := List.mem_map.mp inMap
    -- the claimer has returned, so the bucket has its frames to the end
    have later := TableState.returned_stays isCall (by rw [claimedHere]; rfl) rest
    have filled := filled_of_exec init (run.append rest) later
    simp only [RecordCall.Filled, claimedHere] at filled
    obtain ⟨length, frames, _⟩ := copy.copies_of_uncounted.frames_eq filled.1 filled.2
    have same : d.hash = r.hash := sound.2.symm.trans held
    refine ⟨row, inRows, d, isCall, frames_rawRow length frames, ?_⟩
    rw [← Frames.hash_eq, ← Frames.hash_eq]
    exact same
  · exact absurd pc kept

/-- **Every call site of a document is the stack of a call**, and drained from a program
at rest the document has the stack of every call that was recorded, or one with the same
hash. -/
theorem document_stacks {r : ScanCall} (init : st.Initialised env)
    (run : (allocProgram backtraces st).Exec Nesting AllocState.initial moves s₀)
    (obs : Observes (allocProgram backtraces st) Nesting (AllocWorld.drain st) s₀ .init moves' s r)
    (returned : r.pc = .returned) (args : List (List Char)) (pid : U32) :
    ∃ sites, readSites (dhatJsonString args pid (.raw r.out)) = some sites ∧
      (∀ site ∈ sites, ∃ i stack, StackOf backtraces st (moves ++ moves') i stack ∧
        site.frames = stack.map formatRawFrame) ∧
      (s₀.Quiescent → ∀ (i : Nat) (c : AllocCall), s₀.procs[i]? = some c →
        c.missed s₀.shared.table = false → ∃ stack, StackOf backtraces st moves i stack ∧
          ∃ site ∈ sites, ∃ j shown, StackOf backtraces st moves j shown ∧
            site.frames = shown.map formatRawFrame ∧ traceHash shown = traceHash stack) := by
  obtain ⟨_, tableRun⟩ := table_of_exec run
  obtain ⟨_, rest⟩ := tableExec_of_exec obs.exec
  have rows := uncountedRows_of_observes init run obs returned
  have few : r.out.length ≤ st.buckets := by
    rw [← List.length_map (f := CallSiteStats.uncounted)]
    exact rows.length_le
  refine ⟨_, readSites_drained init few args pid, ?_, ?_⟩
  · intro site inSites
    obtain ⟨row, inRows, rfl⟩ := List.mem_map.mp inSites
    obtain ⟨bs, _, _, _, copies⟩ := rows
    obtain ⟨b, _, copy⟩ := exists_mem_of_forall₂ copies (List.mem_map_of_mem inRows)
    obtain ⟨_, _, d, inCalls, _, length, frames⟩ :=
      copy.copies_of_uncounted.claimer init (tableRun.append rest)
    obtain ⟨i, isStack⟩ := exists_stackOf (run.append obs.exec) inCalls
    exact ⟨i, _, isStack, frames_rawRow length frames⟩
  · intro quiescent i c at_i recorded
    cases site : c.site with
    | none =>
        simp only [AllocCall.missed, site, Bool.true_eq_false] at recorded
    | some k =>
        obtain ⟨d, at_k, isStack⟩ := stackOf_of_exec run at_i site
        simp only [AllocCall.missed, site, at_k, decide_eq_false_iff_not] at recorded
        have inCalls : d ∈ s₀.shared.table.calls := mem_calls_iff.mpr (mem_procs_iff.mpr ⟨k, at_k⟩)
        obtain ⟨row, inRows, e, isCall, frames, hash⟩ := rows.shows_hash init tableRun rest
          (tableQuiescent run quiescent) inCalls recorded
        obtain ⟨j, shown⟩ := exists_stackOf run isCall
        exact ⟨_, isStack, _, List.mem_map_of_mem inRows, j, _, shown, frames, hash⟩

theorem document_stacks_one :
    ∃ sites, readSites (dhatJsonString [] 1 (.raw drainEnd.2.out)) = some sites ∧
      ∃ stack, StackOf true raceStatics reconcileMoves 0 stack ∧ ∃ site ∈ sites, ∃ j shown,
        StackOf true raceStatics reconcileMoves j shown ∧ site.frames = shown.map formatRawFrame ∧
          traceHash shown = traceHash stack := by
  obtain ⟨sites, isRead, _, shows⟩ := document_stacks raceStatics_initialised reconcileRun drainObserved
    (by decide) [] 1
  exact ⟨sites, isRead, shows (by decide) 0 _ rfl (by decide)⟩

end ModAlloc
