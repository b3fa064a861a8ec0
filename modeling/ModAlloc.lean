import ModAlloc.Allocator
import ModAlloc.AllocatorInvariant
import ModAlloc.Backtrace.Capture
import ModAlloc.Backtrace.Chain
import ModAlloc.Backtrace.Config
import ModAlloc.Backtrace.Hash
import ModAlloc.Backtrace.HashRounds
import ModAlloc.Backtrace.Init
import ModAlloc.Backtrace.Published
import ModAlloc.Backtrace.Record
import ModAlloc.Backtrace.Remap
import ModAlloc.Backtrace.Report
import ModAlloc.Backtrace.Sequential
import ModAlloc.Backtrace.Startup
import ModAlloc.Backtrace.StartupProgress
import ModAlloc.Backtrace.StartupReport
import ModAlloc.Backtrace.StartupRun
import ModAlloc.Backtrace.StartupTable
import ModAlloc.Backtrace.Store
import ModAlloc.Backtrace.Table
import ModAlloc.Backtrace.TableInvariant
import ModAlloc.Backtrace.Walk
import ModAlloc.Basic
import ModAlloc.CallStacks
import ModAlloc.Counters
import ModAlloc.DhatCompat.AdHoc
import ModAlloc.DhatCompat.AdHocWriter
import ModAlloc.DhatCompat.Profiler
import ModAlloc.DhatJson.Frames
import ModAlloc.DhatJson.Render
import ModAlloc.DhatJson.Writer
import ModAlloc.Document
import ModAlloc.Guard
import ModAlloc.Ledger
import ModAlloc.Lib.Aggregate
import ModAlloc.Lib.Beside
import ModAlloc.Lib.FirstOccurrence
import ModAlloc.Lib.Follow
import ModAlloc.Lib.HighWater
import ModAlloc.Lib.Interleaving
import ModAlloc.Lib.Json.Grammar
import ModAlloc.Lib.Json.Literal
import ModAlloc.Lib.Json.Parser
import ModAlloc.Lib.LinearProbe
import ModAlloc.Lib.Observer
import ModAlloc.Lib.Rounds
import ModAlloc.Lib.SortedIndex
import ModAlloc.Peaks
import ModAlloc.Profiler
import ModAlloc.Reconcile
import ModAlloc.Reset
import ModAlloc.ResetRace
import ModAlloc.Residency
import ModAlloc.Snapshot
import ModAlloc.Symbolicate.Document
import ModAlloc.Symbolicate.Report
import ModAlloc.Symbolicate.Unix
import ModAlloc.Symbolicate.Windows
import ModAlloc.Tier1
import ModAlloc.WaitFree
