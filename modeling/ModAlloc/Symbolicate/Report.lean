import ModAlloc.Backtrace.Walk
import ModAlloc.DhatJson.Frames
import ModAlloc.Lib.Interleaving

/-!
# The symbolicated report and its cache

`symbolicated_report` on any number of threads, over the `ADDRESS_CACHE` they share.
`cached_resolve` takes the lock twice, once to look an address up and once to insert
it, and resolves in between; each of the three is a step. Whatever the order of the
steps, the cache holds nothing but what `resolve_one` returns, and a report is what it
would be without a cache (`symbolicatedReport_faithful`).
-/

namespace ModAlloc

namespace Symbolicate

open DhatJson Interleaving Interleaving.Program

/-- What `resolve_one` returns for an address: the frame at the address, and those that
were inlined there. -/
structure Resolved (address : U64) (frames : List SymbolicatedFrame) : Prop where
  address : ∀ f ∈ frames, f.address = address
  physical : ∃ f inlined, frames = f :: inlined ∧ f.inlined = false ∧ ∀ g ∈ inlined, g.inlined = true

theorem Resolved.single {f : SymbolicatedFrame} {address : U64} (isAddress : f.address = address)
    (physical : f.inlined = false) : Resolved address [f] where
  address g inList := by rw [List.mem_singleton.mp inList, isAddress]
  physical := ⟨f, [], rfl, physical, fun _ inNil => (nomatch inNil)⟩

/-- `Option<HashMap<u64, Vec<SymbolicatedFrame>>>` -/
abbrev AddressCache := Option (U64 → Option (List SymbolicatedFrame))

/-- `guard.get_or_insert_with(HashMap::new)` -/
def AddressCache.map (cache : AddressCache) : U64 → Option (List SymbolicatedFrame) :=
  cache.getD fun _ => none

/-- `map.entry(address).or_insert_with(..)` -/
def orInsert (map : U64 → Option (List SymbolicatedFrame)) (address : U64)
    (frames : List SymbolicatedFrame) : U64 → Option (List SymbolicatedFrame) :=
  match map address with
  | some _ => map
  | none => Function.update map address (some frames)

/-- The next step of `symbolicated_report`. -/
inductive ReportPc where
  /-- the loop over the rows -/
  | row
  /-- the loop over the frames of a row -/
  | frame
  /-- `cached_resolve`: the lookup under the lock -/
  | lookup (address : U64)
  /-- `resolve_one` -/
  | resolve (address : U64)
  /-- the insertion under the lock -/
  | insert (address : U64) (resolved : List SymbolicatedFrame)
  | returned
deriving DecidableEq

/-- A `symbolicated_report` in progress: the raw report, the rows to do, the addresses
to do in the first of them with the frames so far, and the rows done. -/
structure ReportCall where
  raw : List CallSiteStats
  rows : List CallSiteStats
  addrs : List U64
  frames : List SymbolicatedFrame
  out : List SymbolicatedCallSite
  pc : ReportPc
deriving DecidableEq

namespace ReportCall

def init (raw : List CallSiteStats) : ReportCall := ⟨raw, raw, [], [], [], .row⟩

def step (resolveOne : U64 → List SymbolicatedFrame) (cache : AddressCache) (c : ReportCall) :
    Option (AddressCache × ReportCall) :=
  match c.pc with
  | .row =>
      match c.rows with
      | [] => some (cache, { c with pc := .returned })
      | row :: _ => some (cache, { c with addrs := row.trace, frames := [], pc := .frame })
  | .frame =>
      match c.addrs, c.rows with
      | [], row :: rows =>
          some (cache, { c with rows, out := c.out ++ [⟨row.count, row.totalBytes, c.frames⟩]
                                pc := .row })
      | [], [] => none
      | addr :: addrs, _ =>
          if addr = 0 then some (cache, { c with addrs })
          else some (cache, { c with addrs, pc := .lookup addr })
  | .lookup addr =>
      match cache.map addr with
      | some frames => some (some cache.map, { c with frames := c.frames ++ frames, pc := .frame })
      | none => some (some cache.map, { c with pc := .resolve addr })
  | .resolve addr => some (cache, { c with pc := .insert addr (resolveOne addr) })
  | .insert addr resolved =>
      some (some (orInsert cache.map addr resolved),
        { c with frames := c.frames ++ resolved, pc := .frame })
  | .returned => none

end ReportCall

/-- Any number of `symbolicated_report` calls, each with the raw report it drains. -/
def reportProgram (resolveOne : U64 → List SymbolicatedFrame) :
    Program AddressCache ReportCall (List CallSiteStats) Unit where
  start cache _ raw := some (cache, .init raw)
  act cache _ c _ := c.step resolveOne cache

abbrev ReportState := Pool AddressCache ReportCall

def ReportState.initial : ReportState := ⟨none, []⟩

/-! ## The report without a cache -/

/-- The frames of addresses, resolved one by one. -/
def resolveAll (resolveOne : U64 → List SymbolicatedFrame) (addrs : List U64) :
    List SymbolicatedFrame :=
  (addrs.filter (· ≠ 0)).flatMap resolveOne

def symbolicated (resolveOne : U64 → List SymbolicatedFrame) (row : CallSiteStats) :
    SymbolicatedCallSite :=
  ⟨row.count, row.totalBytes, resolveAll resolveOne row.trace⟩

variable {resolveOne : U64 → List SymbolicatedFrame} {cache cache' : AddressCache}
  {c c' : ReportCall} {addrs : List U64} {addr : U64}

theorem resolveAll_concat_zero : resolveAll resolveOne (addrs ++ [0]) = resolveAll resolveOne addrs := by
  simp only [resolveAll, List.filter_append, ne_eq, not_true_eq_false, decide_false,
    Bool.false_eq_true, not_false_eq_true, List.filter_cons_of_neg, List.filter_nil, List.append_nil]

theorem resolveAll_concat (nonzero : addr ≠ 0) :
    resolveAll resolveOne (addrs ++ [addr]) = resolveAll resolveOne addrs ++ resolveOne addr := by
  simp only [resolveAll, List.filter_append, ne_eq, nonzero, not_false_eq_true, decide_true,
    List.filter_cons_of_pos, List.filter_nil, List.flatMap_append, List.flatMap_cons,
    List.flatMap_nil, List.append_nil]

/-! ## The cache -/

/-- Every entry is what its address resolves to. -/
def AddressCache.Valid (resolveOne : U64 → List SymbolicatedFrame) (cache : AddressCache) : Prop :=
  ∀ addr frames, cache.map addr = some frames → frames = resolveOne addr

theorem AddressCache.Valid.orInsert (valid : cache.Valid resolveOne) (addr : U64) :
    AddressCache.Valid resolveOne (some (orInsert cache.map addr (resolveOne addr))) := by
  intro addr' frames entry
  have entry : Symbolicate.orInsert cache.map addr (resolveOne addr) addr' = some frames := entry
  rw [Symbolicate.orInsert] at entry
  cases known : cache.map addr with
  | some _ =>
      simp only [known] at entry
      exact valid addr' frames entry
  | none =>
      simp only [known] at entry
      rcases eq_or_ne addr' addr with rfl | other
      · rw [Function.update_self] at entry
        exact (Option.some.inj entry).symm
      · rw [Function.update_of_ne other] at entry
        exact valid addr' frames entry

/-! ## One call -/

namespace ReportCall

/-- The first of the rows to do is done up to `addrs`. -/
def Partly (resolveOne : U64 → List SymbolicatedFrame) (rows : List CallSiteStats)
    (frames : List SymbolicatedFrame) (addrs : List U64) : Prop :=
  ∃ row rest seen, rows = row :: rest ∧ row.trace = seen ++ addrs ∧
    frames = resolveAll resolveOne seen

/-- What a call has done, where it is. -/
def Course (resolveOne : U64 → List SymbolicatedFrame) (c : ReportCall) : Prop :=
  match c.pc with
  | .row => True
  | .frame => Partly resolveOne c.rows c.frames c.addrs
  | .lookup addr | .resolve addr => addr ≠ 0 ∧ Partly resolveOne c.rows c.frames (addr :: c.addrs)
  | .insert addr resolved =>
      addr ≠ 0 ∧ Partly resolveOne c.rows c.frames (addr :: c.addrs) ∧ resolved = resolveOne addr
  | .returned => c.rows = []

/-- The rows done are what they are without a cache. -/
structure Sound (resolveOne : U64 → List SymbolicatedFrame) (c : ReportCall) : Prop where
  done : ∃ done, c.raw = done ++ c.rows ∧ c.out = done.map (symbolicated resolveOne)
  course : c.Course resolveOne

theorem sound_init (raw : List CallSiteStats) : (init raw).Sound resolveOne :=
  ⟨⟨[], rfl, rfl⟩, trivial⟩

theorem Partly.next {rows : List CallSiteStats} {frames : List SymbolicatedFrame}
    (partly : Partly resolveOne rows frames (addr :: addrs)) (nonzero : addr ≠ 0) :
    Partly resolveOne rows (frames ++ resolveOne addr) addrs := by
  obtain ⟨row, rest, seen, current, parts, rfl⟩ := partly
  refine ⟨row, rest, seen ++ [addr], current, ?_, (resolveAll_concat nonzero).symm⟩
  rw [parts, List.append_assoc]
  rfl

theorem Partly.skip {rows : List CallSiteStats} {frames : List SymbolicatedFrame}
    (partly : Partly resolveOne rows frames (0 :: addrs)) : Partly resolveOne rows frames addrs := by
  obtain ⟨row, rest, seen, current, parts, rfl⟩ := partly
  refine ⟨row, rest, seen ++ [0], current, ?_, resolveAll_concat_zero.symm⟩
  rw [parts, List.append_assoc]
  rfl

/-- A row of which every address is done. -/
theorem Partly.row {row : CallSiteStats} {rows : List CallSiteStats}
    {frames : List SymbolicatedFrame} (partly : Partly resolveOne (row :: rows) frames []) :
    (⟨row.count, row.totalBytes, frames⟩ : SymbolicatedCallSite) = symbolicated resolveOne row := by
  obtain ⟨_, _, seen, current, parts, rfl⟩ := partly
  cases current
  rw [symbolicated, parts, List.append_nil]

theorem sound_step (valid : cache.Valid resolveOne) (sound : c.Sound resolveOne)
    (stepped : c.step resolveOne cache = some (cache', c')) :
    cache'.Valid resolveOne ∧ c'.Sound resolveOne := by
  obtain ⟨⟨done, parts, out⟩, course⟩ := sound
  unfold step at stepped
  unfold Course at course
  cases pc : c.pc with
  | row =>
      simp only [pc] at stepped
      cases rows : c.rows with
      | nil =>
          simp only [rows, Option.some.injEq, Prod.mk.injEq] at stepped
          obtain ⟨rfl, rfl⟩ := stepped
          exact ⟨valid, ⟨done, parts.trans (by rw [rows]), out⟩, rfl⟩
      | cons row rest =>
          simp only [rows, Option.some.injEq, Prod.mk.injEq] at stepped
          obtain ⟨rfl, rfl⟩ := stepped
          exact ⟨valid, ⟨done, parts.trans (by rw [rows]), out⟩, row, rest, [], rfl, rfl, rfl⟩
  | frame =>
      simp only [pc] at stepped course
      cases rest : c.addrs with
      | nil =>
          rw [rest] at course
          have partly := course
          obtain ⟨row, rows, _, current, _⟩ := course
          rw [current] at partly
          simp only [rest, current, Option.some.injEq, Prod.mk.injEq] at stepped
          obtain ⟨rfl, rfl⟩ := stepped
          refine ⟨valid, ⟨done ++ [row], ?_, ?_⟩, trivial⟩
          · rw [parts, current, List.append_assoc]
            rfl
          · rw [out, partly.row, List.map_append, List.map_cons, List.map_nil]
      | cons addr addrs =>
          rw [rest] at course
          by_cases zero : addr = 0
          · simp only [rest, zero, if_true, Option.some.injEq, Prod.mk.injEq] at stepped
            obtain ⟨rfl, rfl⟩ := stepped
            rw [zero] at course
            refine ⟨valid, ⟨done, parts, out⟩, ?_⟩
            simp only [Course]
            exact course.skip
          · simp only [rest, if_neg zero, Option.some.injEq, Prod.mk.injEq] at stepped
            obtain ⟨rfl, rfl⟩ := stepped
            exact ⟨valid, ⟨done, parts, out⟩, zero, course⟩
  | lookup addr =>
      simp only [pc] at stepped course
      cases known : cache.map addr with
      | some frames =>
          simp only [known, Option.some.injEq, Prod.mk.injEq] at stepped
          obtain ⟨rfl, rfl⟩ := stepped
          obtain rfl := valid addr frames known
          exact ⟨valid, ⟨done, parts, out⟩, course.2.next course.1⟩
      | none =>
          simp only [known, Option.some.injEq, Prod.mk.injEq] at stepped
          obtain ⟨rfl, rfl⟩ := stepped
          exact ⟨valid, ⟨done, parts, out⟩, course⟩
  | resolve addr =>
      simp only [pc, Option.some.injEq, Prod.mk.injEq] at stepped course
      obtain ⟨rfl, rfl⟩ := stepped
      exact ⟨valid, ⟨done, parts, out⟩, course.1, course.2, rfl⟩
  | insert addr resolved =>
      simp only [pc, Option.some.injEq, Prod.mk.injEq] at stepped course
      obtain ⟨rfl, rfl⟩ := stepped
      obtain ⟨nonzero, partly, rfl⟩ := course
      exact ⟨valid.orInsert addr, ⟨done, parts, out⟩, partly.next nonzero⟩
  | returned =>
      simp only [pc] at stepped
      cases stepped

/-- The steps that a call still has to make, at most. -/
def remaining (c : ReportCall) : Nat :=
  let rowSteps := fun row : CallSiteStats => 4 * row.trace.length + 2
  match c.pc with
  | .row => (c.rows.map rowSteps).sum + 1
  | .frame => 4 * c.addrs.length + 2 + (c.rows.tail.map rowSteps).sum
  | .lookup _ => 4 * c.addrs.length + 5 + (c.rows.tail.map rowSteps).sum
  | .resolve _ => 4 * c.addrs.length + 4 + (c.rows.tail.map rowSteps).sum
  | .insert _ _ => 4 * c.addrs.length + 3 + (c.rows.tail.map rowSteps).sum
  | .returned => 0

/-- A call that has not returned can make a step, which leaves less to do. -/
theorem Sound.advances (sound : c.Sound resolveOne) (running : c.pc ≠ .returned)
    (cache : AddressCache) :
    ∃ cache' c', c.step resolveOne cache = some (cache', c') ∧ c'.remaining < c.remaining := by
  have course := sound.course
  unfold Course at course
  unfold step
  cases pc : c.pc with
  | row =>
      cases rows : c.rows with
      | nil =>
          refine ⟨_, _, rfl, ?_⟩
          simp only [remaining, pc, rows, List.map_nil, List.sum_nil]
          omega
      | cons row rest =>
          refine ⟨_, _, rfl, ?_⟩
          simp only [remaining, pc, rows, List.map_cons, List.sum_cons, List.tail_cons]
          omega
  | frame =>
      simp only [pc] at course
      obtain ⟨row, rows, _, current, _⟩ := course
      rw [current]
      cases addrs : c.addrs with
      | nil =>
          refine ⟨_, _, rfl, ?_⟩
          simp only [remaining, pc, current, addrs, List.length_nil, List.tail_cons]
          omega
      | cons addr rest =>
          by_cases zero : addr = 0
          · refine ⟨_, _, if_pos zero, ?_⟩
            simp only [remaining, pc, current, addrs, List.length_cons]
            omega
          · refine ⟨_, _, if_neg zero, ?_⟩
            simp only [remaining, pc, current, addrs, List.length_cons]
            omega
  | lookup addr =>
      cases known : cache.map addr with
      | some frames =>
          simp only [known]
          refine ⟨_, _, rfl, ?_⟩
          simp only [remaining, pc]
          omega
      | none =>
          simp only [known]
          refine ⟨_, _, rfl, ?_⟩
          simp only [remaining, pc]
          omega
  | resolve addr =>
      refine ⟨_, _, rfl, ?_⟩
      simp only [remaining, pc]
      omega
  | insert addr resolved =>
      refine ⟨_, _, rfl, ?_⟩
      simp only [remaining, pc]
      omega
  | returned => exact absurd pc running

end ReportCall

/-! ## Every state -/

variable {moves : List (Move (List CallSiteStats) Unit)} {s : ReportState}

theorem valid_sound (run : (reportProgram resolveOne).Exec anyMove ReportState.initial moves s) :
    s.shared.Valid resolveOne ∧ Everywhere (fun _ c => c.Sound resolveOne) s := by
  have undisturbed : Undisturbed (reportProgram resolveOne) anyMove (fun _ => True)
      (AddressCache.Valid resolveOne) fun _ c => ReportCall.Sound resolveOne c :=
    { start_self := by
        intro s raw cache c _ _ valid _ started
        cases started
        exact ⟨valid, ReportCall.sound_init raw⟩
      start_other := by
        intro s raw cache c i d _ _ _ _ _ _ sound
        exact sound
      act_self := by
        intro s i c a cache c' _ _ valid _ sound acted
        exact ReportCall.sound_step valid sound acted
      act_other := by
        intro s i c a cache c' j d _ _ _ _ _ _ _ _ sound
        exact sound }
  exact Exec.interference (fun _ _ _ _ _ _ => trivial) undisturbed run trivial
    ⟨fun _ _ entry => (nomatch entry), fun i c at_i => by cases at_i⟩

/-- **A report comes to its end**: until it returns, a call can make its next step, and
then has less to do. -/
theorem report_advances (run : (reportProgram resolveOne).Exec anyMove ReportState.initial moves s)
    {i : Nat} (at_i : s.procs[i]? = some c) (running : c.pc ≠ .returned) :
    ∃ s' c', (reportProgram resolveOne).step s (.act i ()) = some s' ∧
      s'.procs[i]? = some c' ∧ c'.remaining < c.remaining := by
  obtain ⟨cache, c', stepped, less⟩ :=
    ((valid_sound run).2 i c at_i).advances running s.shared
  refine ⟨_, c', step_act_eq at_i stepped, ?_, less⟩
  exact List.getElem?_set_self (List.getElem?_eq_some_iff.mp at_i).1

/-- Without the inlined frames, the addresses resolved are left. -/
theorem address_physical (resolved : ∀ addr, Resolved addr (resolveOne addr)) (addrs : List U64) :
    ((resolveAll resolveOne addrs).filter (!·.inlined)).map SymbolicatedFrame.address =
      addrs.filter (· ≠ 0) := by
  have one : ∀ addr, ((resolveOne addr).filter (!·.inlined)).map SymbolicatedFrame.address = [addr] := by
    intro addr
    obtain ⟨f, inlined, eq, physical, others⟩ := (resolved addr).physical
    have none : inlined.filter (!·.inlined) = [] := by
      refine List.filter_eq_nil_iff.mpr fun g inInlined => ?_
      simp only [others g inInlined, Bool.not_true, Bool.false_eq_true, not_false_eq_true]
    rw [eq, List.filter_cons_of_pos (by rw [physical]; rfl), none, List.map_cons, List.map_nil,
      (resolved addr).address f (eq ▸ List.mem_cons_self)]
  rw [resolveAll]
  induction addrs.filter (· ≠ 0) with
  | nil => rfl
  | cons addr addrs ih =>
      rw [List.flatMap_cons, List.filter_append, List.map_append, one, ih]
      rfl

/-- **The cache is invisible**, and the report keeps what the raw report says. -/
theorem symbolicatedReport_faithful (resolved : ∀ addr, Resolved addr (resolveOne addr))
    (run : (reportProgram resolveOne).Exec anyMove ReportState.initial moves s) :
    (∀ addr frames, s.shared.map addr = some frames → frames = resolveOne addr) ∧
      ∀ c ∈ s.procs, c.pc = .returned →
        List.Forall₂ (fun row site => site.count = row.count ∧ site.totalBytes = row.totalBytes ∧
          site.frames = (row.trace.filter (· ≠ 0)).flatMap resolveOne ∧
          (site.frames.filter (!·.inlined)).map SymbolicatedFrame.address =
            row.trace.filter (· ≠ 0)) c.raw c.out := by
  obtain ⟨valid, sound⟩ := valid_sound run
  refine ⟨valid, fun c inProcs returned => ?_⟩
  obtain ⟨i, at_i⟩ := mem_procs_iff.mp inProcs
  obtain ⟨⟨done, parts, out⟩, course⟩ := sound i c at_i
  simp only [ReportCall.Course, returned] at course
  rw [course, List.append_nil] at parts
  rw [out, parts, List.forall₂_map_right_iff, List.forall₂_same]
  exact fun row _ => ⟨rfl, rfl, rfl, address_physical resolved row.trace⟩

/-! Two threads miss the same address at the same time, and find it in the cache later. -/

/-- A function with another inlined into it. -/
def resolveInlined (addr : U64) : List SymbolicatedFrame :=
  [⟨addr, some "outer".toList, none, none, false⟩, ⟨addr, some "inner".toList, none, none, true⟩]

def racingSite : CallSiteStats :=
  let frames := ((Frames.empty.push 0x401000).push 0).push 0x401000
  ⟨frames.frames, frames.count, 2, 64⟩

def racingMoves : List (Move (List CallSiteStats) Unit) :=
  [.start [racingSite], .start [racingSite]] ++
    (List.replicate 10 [.act 0 (), .act 1 ()]).flatten

def racingEnd : ReportState :=
  ((reportProgram resolveInlined).run anyMove ReportState.initial racingMoves).get (by decide)

theorem racingRun :
    (reportProgram resolveInlined).Exec anyMove ReportState.initial racingMoves racingEnd :=
  Exec.of_run (Option.some_get (by decide)).symm

theorem symbolicatedReport_faithful_race :
    racingEnd.procs.length = 2 ∧ ∀ c ∈ racingEnd.procs, c.raw = [racingSite] ∧
      List.Forall₂ (fun row site => site.count = row.count ∧ site.totalBytes = row.totalBytes ∧
        site.frames = (row.trace.filter (· ≠ 0)).flatMap resolveInlined ∧
        (site.frames.filter (!·.inlined)).map SymbolicatedFrame.address =
          row.trace.filter (· ≠ 0)) c.raw c.out := by
  have resolved : ∀ addr, Resolved addr (resolveInlined addr) := by
    intro addr
    refine ⟨?_, _, _, rfl, rfl, ?_⟩
    · simp [resolveInlined]
    · simp
  have returned : ∀ c ∈ racingEnd.procs, c.pc = .returned ∧ c.raw = [racingSite] := by decide
  refine ⟨by decide, fun c inProcs => ⟨(returned c inProcs).2, ?_⟩⟩
  exact (symbolicatedReport_faithful resolved racingRun).2 c inProcs (returned c inProcs).1

end Symbolicate

end ModAlloc
