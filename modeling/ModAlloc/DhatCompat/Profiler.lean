import ModAlloc.Backtrace.Sequential
import ModAlloc.Backtrace.Walk
import ModAlloc.DhatCompat.AdHocWriter

/-!
# The profiler of the dhat surface

A `ProfilerBuilder` collects a configuration, and the `Profiler` built from it writes
the report when it is dropped. Of the settings, the last file name and the last
`trim_backtraces` are the ones kept (`build_config`). `drop` reads all of the
configuration but `trim_backtraces`, so that the frames of a call site are trimmed
only where there is nothing to trim (`drop_trims_iff`).
-/

namespace ModAlloc

namespace DhatCompat

open DhatJson

inductive Mode where
  | heap
  | adHoc
deriving DecidableEq

/-- A path is as `Path::display` shows it. -/
structure Config where
  mode : Mode
  fileName : Option (List Char)
  testing : Bool
  trimBacktraces : Option U64
deriving DecidableEq

def Config.default : Config := ⟨.heap, none, false, none⟩

structure Profiler where
  config : Config

structure ProfilerBuilder where
  config : Config

namespace Profiler

/-- `install`, which besides sets the flag `PROFILER_ACTIVE` that nothing reads. -/
def install (config : Config) : Profiler := ⟨config⟩

def newHeap : Profiler := install { Config.default with mode := .heap }

def newAdHoc : Profiler := install { Config.default with mode := .adHoc }

def builder : ProfilerBuilder := ⟨Config.default⟩

end Profiler

namespace ProfilerBuilder

def adHoc (b : ProfilerBuilder) : ProfilerBuilder := { b with config.mode := .adHoc }

def testing (b : ProfilerBuilder) : ProfilerBuilder := { b with config.testing := true }

def fileName (b : ProfilerBuilder) (p : List Char) : ProfilerBuilder :=
  { b with config.fileName := some p }

def trimBacktraces (b : ProfilerBuilder) (maxFrames : Option U64) : ProfilerBuilder :=
  { b with config.trimBacktraces := maxFrames }

def build (b : ProfilerBuilder) : Profiler := Profiler.install b.config

end ProfilerBuilder

/-! ## The drop -/

/-- What a drop reads of its process: the arguments, the id, the report drained and the
ad-hoc statistics. -/
structure Process where
  args : List (List Char)
  pid : U32
  report : Report
  adHocStats : AdHocStats

/-- What is handed to `std::fs::write`. -/
structure Write where
  path : List Char
  contents : List Char

def writeDhatJson (process : Process) (path : List Char) : Write :=
  ⟨path, dhatJsonString process.args process.pid process.report⟩

def writeAdHoc (process : Process) (path : List Char) : Write :=
  ⟨path, render process.args process.pid process.adHocStats⟩

/-- The write that `drop` attempts, if any. -/
def Profiler.drop (process : Process) (profiler : Profiler) : Option Write :=
  if profiler.config.testing then none
  else
    let path := profiler.config.fileName.getD (match profiler.config.mode with
      | .heap => "dhat-heap.json".toList
      | .adHoc => "dhat-ad-hoc.json".toList)
    match profiler.config.mode with
    | .heap => some (writeDhatJson process path)
    | .adHoc => some (writeAdHoc process path)

/-! ## Any order of builder calls -/

inductive BuilderCall where
  | adHoc
  | testing
  | fileName (p : List Char)
  | trimBacktraces (maxFrames : Option U64)
deriving DecidableEq

def ProfilerBuilder.call (b : ProfilerBuilder) (c : BuilderCall) : ProfilerBuilder :=
  match c with
  | .adHoc => b.adHoc
  | .testing => b.testing
  | .fileName p => b.fileName p
  | .trimBacktraces maxFrames => b.trimBacktraces maxFrames

/-- `Profiler::builder()`, the calls one after the other, and `build()`. -/
def built (calls : List BuilderCall) : Profiler :=
  (calls.foldl ProfilerBuilder.call Profiler.builder).build

def BuilderCall.file : BuilderCall → Option (List Char)
  | .fileName p => some p
  | _ => none

def BuilderCall.trim : BuilderCall → Option (Option U64)
  | .trimBacktraces maxFrames => some maxFrames
  | _ => none

/-- The last `trim_backtraces` setting; `None` where there is none. -/
def lastTrim (calls : List BuilderCall) : Option U64 := (calls.filterMap BuilderCall.trim).getLast?.join

def lastFile (calls : List BuilderCall) : Option (List Char) :=
  (calls.filterMap BuilderCall.file).getLast?

/-- **The configuration that builder calls leave**, in whatever order they come. -/
theorem build_config (calls : List BuilderCall) :
    (built calls).config =
      { mode := if .adHoc ∈ calls then .adHoc else .heap
        fileName := lastFile calls
        testing := decide (.testing ∈ calls)
        trimBacktraces := lastTrim calls } := by
  induction calls using List.reverseRecOn with
  | nil => rfl
  | append_singleton calls c ih =>
      have step : (built (calls ++ [c])).config =
          (ProfilerBuilder.call ⟨(built calls).config⟩ c).config := by
        rw [built, List.foldl_concat]
        rfl
      rw [step, ih]
      cases c with
      | adHoc =>
          simp [ProfilerBuilder.call, ProfilerBuilder.adHoc, lastFile, lastTrim, BuilderCall.file,
            BuilderCall.trim]
      | testing =>
          simp [ProfilerBuilder.call, ProfilerBuilder.testing, lastFile, lastTrim, BuilderCall.file,
            BuilderCall.trim]
      | fileName p =>
          simp [ProfilerBuilder.call, ProfilerBuilder.fileName, lastFile, lastTrim, BuilderCall.file,
            BuilderCall.trim]
      | trimBacktraces maxFrames =>
          simp [ProfilerBuilder.call, ProfilerBuilder.trimBacktraces, lastFile, lastTrim,
            BuilderCall.file, BuilderCall.trim]

/-- The constructors are such sequences of calls, too. -/
theorem newHeap_newAdHoc : Profiler.newHeap = built [] ∧ Profiler.newAdHoc = built [.adHoc] :=
  ⟨rfl, rfl⟩

/-- **What a drop writes and where**: nothing for testing, otherwise one of the two
documents, to the last file name given. -/
theorem drop_built (calls : List BuilderCall) (process : Process) :
    (built calls).drop process =
      if .testing ∈ calls then none
      else if .adHoc ∈ calls then
        some (writeAdHoc process ((lastFile calls).getD "dhat-ad-hoc.json".toList))
      else some (writeDhatJson process ((lastFile calls).getD "dhat-heap.json".toList)) := by
  rw [Profiler.drop, build_config]
  by_cases testing : .testing ∈ calls
  · simp only [testing, decide_true, if_true]
  · by_cases adHoc : .adHoc ∈ calls
    · simp only [testing, adHoc, decide_false, Bool.false_eq_true, if_true, if_false]
    · simp only [testing, adHoc, decide_false, Bool.false_eq_true, if_false]

/-! ## The frames of a call site -/

/-- The frames that `trim_backtraces` leaves of a call site with so many. -/
def frameLimit (maxFrames : Option U64) (frameCount : Nat) : Nat :=
  match maxFrames with
  | some n => min n.toNat frameCount
  | none => min frameCount 8

/-- What a document has for a call site according to `trim_backtraces`. -/
def promised (maxFrames : Option U64) (row : CallSiteStats) : Site :=
  ⟨row.totalBytes.toNat, row.count.toNat,
    (row.frames.toList.take (frameLimit maxFrames row.frameCount)).map formatRawFrame⟩

theorem frameLimit_le (maxFrames : Option U64) (frameCount : Nat) :
    frameLimit maxFrames frameCount ≤ frameCount := by
  cases maxFrames with
  | none => exact Nat.min_le_left _ _
  | some n => exact Nat.min_le_right _ _

theorem frameLimit_eq_iff (maxFrames : Option U64) {frameCount : Nat} (cap : frameCount ≤ 8) :
    frameLimit maxFrames frameCount = frameCount ↔ ∀ n, maxFrames = some n → frameCount ≤ n.toNat := by
  cases maxFrames with
  | none =>
      refine ⟨fun _ n isSome => ?_, fun _ => Nat.min_eq_left cap⟩
      cases isSome
  | some n =>
      rw [frameLimit, min_eq_right_iff]
      refine ⟨fun enough m isSome => ?_, fun enough => enough n rfl⟩
      rwa [← Option.some.inj isSome]

theorem site_rawRow (row : CallSiteStats) :
    (rawRow row).site = ⟨row.totalBytes.toNat, row.count.toNat, row.trace.map formatRawFrame⟩ := by
  rw [Row.site, Row.strings, rawRow, List.map_map]
  rfl

theorem promised_eq_iff (maxFrames : Option U64) (row : CallSiteStats) :
    (rawRow row).site = promised maxFrames row ↔
      ∀ n, maxFrames = some n → row.frameCount.val ≤ n.toNat := by
  have cap : row.frameCount.val ≤ 8 := Nat.le_of_lt_succ row.frameCount.isLt
  rw [← frameLimit_eq_iff maxFrames cap, site_rawRow, promised]
  constructor
  · intro same
    have lengths := congrArg List.length (Site.mk.inj same).2.2
    have below := frameLimit_le maxFrames row.frameCount
    simp only [CallSiteStats.trace, List.length_map, List.length_take, Vector.length_toList] at lengths
    omega
  · intro whole
    rw [whole, CallSiteStats.trace]

/-- The indices of the frames in the table of call sites fit into a `u32`. -/
theorem strings_few {st : Statics} {env : Option (List Char)} (init : st.Initialised env)
    (mem : Memory) :
    (Report.raw (callSitesReport st mem)).strings.eraseDups.length < 2 ^ 32 - 1 := by
  have length := List.length_filterMap_le (rowAt mem) (List.range st.buckets)
  rw [List.length_range] at length
  refine strings_few_of_rows ?_
  rw [callSitesReport_eq init, rowsBelow]
  exact length.trans init.buckets_le

/-- Whatever the settings, the document of a heap profiler lists every frame. -/
theorem drop_lists {st : Statics} {env : Option (List Char)} (init : st.Initialised env)
    (mem : Memory) {calls : List BuilderCall} (heap : .adHoc ∉ calls) (writes : .testing ∉ calls)
    (args : List (List Char)) (pid : U32) (stats : AdHocStats) :
    ∃ write, (built calls).drop ⟨args, pid, .raw (callSitesReport st mem), stats⟩ = some write ∧
      readSites write.contents =
        some ((callSitesReport st mem).map fun row => (rawRow row).site) := by
  refine ⟨_, by rw [drop_built, if_neg writes, if_neg heap], ?_⟩
  rw [writeDhatJson, readSites_dhatJsonString args pid (strings_few init mem), Report.rows,
    List.map_map]
  rfl

/-- **When `trim_backtraces` is honoured.** Dropped without the `symbolicate` feature, the
profiler writes a document that lists the frames as the last setting has it exactly
when no call site has more frames than that. -/
theorem drop_trims_iff {st : Statics} {env : Option (List Char)} (init : st.Initialised env)
    (mem : Memory) {calls : List BuilderCall} (heap : .adHoc ∉ calls) (writes : .testing ∉ calls)
    (args : List (List Char)) (pid : U32) (stats : AdHocStats) :
    let rows := callSitesReport st mem
    ∃ write, (built calls).drop ⟨args, pid, .raw rows, stats⟩ = some write ∧
      (readSites write.contents = some (rows.map (promised (lastTrim calls))) ↔
        ∀ n, lastTrim calls = some n → ∀ row ∈ rows, row.frameCount.val ≤ n.toNat) := by
  intro rows
  obtain ⟨write, dropped, listed⟩ := drop_lists init mem heap writes args pid stats
  refine ⟨write, dropped, ?_⟩
  rw [listed, Option.some.injEq, List.map_inj_left]
  simp only [promised_eq_iff]
  exact ⟨fun each n last row inRows => each row inRows n last,
    fun each row inRows n last => each n last row inRows⟩

/-- One event with three frames, recorded into a table of 64 buckets. -/
def threeFrames : Memory :=
  recordAll ⟨0x100000, 64, 63⟩
    [(((Frames.empty.push 0x401000).push 0x402000).push 0x403000, 48)]

/-- Three frames are not trimmed to three. -/
theorem drop_trims_iff_three :
    let rows := callSitesReport ⟨0x100000, 64, 63⟩ threeFrames
    let calls : List BuilderCall :=
      [.trimBacktraces (some 1), .fileName "heap.json".toList, .trimBacktraces (some 3)]
    ∃ write, (built calls).drop ⟨[], 1, .raw rows, ⟨0, 0⟩⟩ = some write ∧
      readSites write.contents = some (rows.map (promised (some 3))) := by
  intro rows calls
  have init : Statics.Initialised ⟨0x100000, 64, 63⟩ (some "64".toList) :=
    ⟨by decide, by decide, rfl⟩
  obtain ⟨write, dropped, trimmed⟩ :=
    drop_trims_iff init threeFrames (show .adHoc ∉ calls by decide) (by decide) [] 1 ⟨0, 0⟩
  refine ⟨write, dropped, trimmed.mpr fun n last => ?_⟩
  have three : lastTrim calls = some 3 := rfl
  rw [three] at last
  cases last
  decide +kernel

/-- Nor are they to two. -/
theorem drop_keeps_frames :
    let rows := callSitesReport ⟨0x100000, 64, 63⟩ threeFrames
    let calls : List BuilderCall := [.trimBacktraces (some 2)]
    lastTrim calls = some 2 ∧ ∃ write, (built calls).drop ⟨[], 1, .raw rows, ⟨0, 0⟩⟩ = some write ∧
      readSites write.contents =
        some [⟨48, 1, [formatRawFrame 0x401000, formatRawFrame 0x402000, formatRawFrame 0x403000]⟩] ∧
      rows.map (promised (some 2)) =
        [⟨48, 1, [formatRawFrame 0x401000, formatRawFrame 0x402000]⟩] ∧
      readSites write.contents ≠ some (rows.map (promised (some 2))) := by
  intro rows calls
  have init : Statics.Initialised ⟨0x100000, 64, 63⟩ (some "64".toList) :=
    ⟨by decide, by decide, rfl⟩
  obtain ⟨write, dropped, listed⟩ :=
    drop_lists init threeFrames (show .adHoc ∉ calls by decide) (by decide) [] 1 ⟨0, 0⟩
  have sites : rows.map (fun row => (rawRow row).site) =
      [⟨48, 1, [formatRawFrame 0x401000, formatRawFrame 0x402000, formatRawFrame 0x403000]⟩] := by
    decide +kernel
  have two : rows.map (promised (some 2)) =
      [⟨48, 1, [formatRawFrame 0x401000, formatRawFrame 0x402000]⟩] := by decide +kernel
  have listed : readSites write.contents = some (rows.map fun row => (rawRow row).site) := listed
  rw [sites] at listed
  refine ⟨rfl, write, dropped, listed, two, ?_⟩
  rw [listed, two]
  decide +kernel

end DhatCompat

end ModAlloc
