import ModAlloc.DhatJson.Render
import ModAlloc.Symbolicate.Unix
import ModAlloc.Symbolicate.Windows

/-!
# The symbolicated document

With the `symbolicate` feature the heap document shows resolved frames. What an address
resolves to need not be the same for all threads: on Unix every thread builds its own
symbolicator when it first needs one, and one that could not be built is not tried
again, while the cache of resolved addresses belongs to the process.

For any order of the steps of any number of reports, the document of a report lists the
rows that it was made from, and for each address the frames that some thread has
resolved it to, those in the cache where the address was cached when the report began
(`symbolicated_document`).
-/

namespace ModAlloc

namespace Symbolicate

open DhatJson Interleaving Interleaving.Program

/-! ## `resolve_one` -/

/-- `resolve_one` on a target, with what `build` has made, or without it where `build`
has failed. Each thread uses the cell `slot`: its own (`thread_local!`) or the one of the
process (`OnceLock`). A `RefCell` can be found borrowed. -/
structure Platform (β : Type) where
  resolve : Option β → U64 → List SymbolicatedFrame
  resolved : ∀ built address, Resolved address (resolve built address)
  slot : Nat → Nat
  refCell : Bool

def unix (demangle : List Char → List Char) : Platform Unix.Symbolicator where
  resolve := Unix.resolve demangle
  resolved := Unix.resolve_resolved
  slot thread := thread
  refCell := true

/-- No address makes a search in an index that `build` has made panic. -/
theorem Windows.resolve_build_isSome (binarySearch : Windows.BinarySearch)
    (demangle : List Char → List Char) (symbolTable : Option (List Windows.Symbol)) (address : U64) :
    (Windows.resolve binarySearch (Windows.build demangle symbolTable) address).isSome := by
  cases symbolTable with
  | none => rfl
  | some symbols =>
      have built : Windows.build demangle (some symbols) =
          some (SortedIndex.index Windows.rva (Windows.enumerate demangle symbols)) := rfl
      have found := binarySearch.found _ ((address &&& 0xffffffff).setWidth 32)
        ((SortedIndex.index_sorted Windows.rva (Windows.enumerate demangle symbols)).imp le_of_lt)
      rw [built, Windows.resolve_some]
      split
      case h_1 => rfl
      case h_2 isPlace =>
          obtain ⟨symbol, at_i, _⟩ := found.of_index_some isPlace
          rw [Windows.frameAt, at_i]
          rfl

def windows (binarySearch : Windows.BinarySearch) (demangle : List Char → List Char) :
    Platform (List Windows.Symbol) where
  resolve symbolTable address :=
    (Windows.resolve binarySearch (Windows.build demangle symbolTable) address).get
      (Windows.resolve_build_isSome binarySearch demangle symbolTable address)
  resolved _ _ := Windows.resolve_resolved (Option.some_get _).symm
  slot _ := 0
  refCell := false

/-- Any other target: there is nothing to build. -/
def otherTarget : Platform Unit where
  resolve _ address := [⟨address, none, none, none, false⟩]
  resolved _ _ := .single rfl rfl
  slot _ := 0
  refCell := false

/-! ## The reports -/

variable {β : Type}

/-- `ADDRESS_CACHE`, and the cells with what `build` has made in each. `borrowed` says
whether a call has found its cell borrowed, which the source does not keep. -/
structure SymbolWorld (β : Type) where
  cache : AddressCache
  cells : Nat → Option (Option β)
  borrowed : Bool

/-- A `symbolicated_report` on a thread. -/
structure SymbolCall where
  index : Nat
  thread : Nat
  call : ReportCall

/-- What the environment contributes to a step: whether the cell is borrowed, and what
`build` comes to. -/
structure SymbolAnswer (β : Type) where
  borrowed : Bool
  built : Option β

def SymbolCall.step (P : Platform β) (world : SymbolWorld β) (c : SymbolCall)
    (answer : SymbolAnswer β) : Option (SymbolWorld β × SymbolCall) :=
  match c.call.pc with
  | .resolve _ =>
      if P.refCell && answer.borrowed then
        (c.call.step (P.resolve none) world.cache).map fun r =>
          ({ world with cache := r.1, borrowed := true }, { c with call := r.2 })
      else
        -- `guard.get_or_insert_with(build)`
        let built := (world.cells (P.slot c.thread)).getD answer.built
        (c.call.step (P.resolve built) world.cache).map fun r =>
          ({ world with cache := r.1, cells := Function.update world.cells (P.slot c.thread) (some built) },
            { c with call := r.2 })
  | _ =>
      (c.call.step (P.resolve none) world.cache).map fun r =>
        ({ world with cache := r.1 }, { c with call := r.2 })

/-- Any number of `symbolicated_report` calls, each on a thread, with its raw report. -/
def symbolProgram (P : Platform β) :
    Program (SymbolWorld β) SymbolCall (Nat × List CallSiteStats) (SymbolAnswer β) where
  start world index arg := some (world, ⟨index, arg.1, .init arg.2⟩)
  act world _ c answer := c.step P world answer

abbrev SymbolState (β : Type) := Pool (SymbolWorld β) SymbolCall

def SymbolState.initial : SymbolState β := ⟨⟨none, fun _ => none, false⟩, []⟩

/-! ## What an address resolves to -/

variable {P : Platform β} {world world' : SymbolWorld β} {c c' : SymbolCall} {answer : SymbolAnswer β}
  {base own : U64 → Option (List SymbolicatedFrame)} {addr : U64} {frames : List SymbolicatedFrame}

/-- Some cell resolves the address to these frames. -/
def SymbolWorld.Gives (P : Platform β) (world : SymbolWorld β) (addr : U64)
    (frames : List SymbolicatedFrame) : Prop :=
  ∃ built, frames = P.resolve built addr ∧
    ((∃ slot, world.cells slot = some built) ∨ built = none ∧ world.borrowed = true)

/-- They are the known ones, where the address was known. -/
def SymbolWorld.Decides (P : Platform β) (world : SymbolWorld β)
    (known : U64 → Option (List SymbolicatedFrame)) (addr : U64) (frames : List SymbolicatedFrame) : Prop :=
  (∀ before, known addr = some before → frames = before) ∧ world.Gives P addr frames

/-- What has been built stays. -/
structure SymbolWorld.Kept (world world' : SymbolWorld β) : Prop where
  cells : ∀ slot built, world.cells slot = some built → world'.cells slot = some built
  borrowed : world.borrowed = true → world'.borrowed = true

theorem SymbolWorld.Kept.refl (world : SymbolWorld β) : world.Kept world :=
  ⟨fun _ _ built => built, fun borrowed => borrowed⟩

theorem SymbolWorld.Gives.mono (gives : world.Gives P addr frames) (kept : world.Kept world') :
    world'.Gives P addr frames := by
  obtain ⟨built, eq, source⟩ := gives
  refine ⟨built, eq, ?_⟩
  rcases source with ⟨slot, inCell⟩ | ⟨none, borrowed⟩
  · exact .inl ⟨slot, kept.cells slot built inCell⟩
  · exact .inr ⟨none, kept.borrowed borrowed⟩

theorem SymbolWorld.Decides.mono (decides : world.Decides P base addr frames)
    (kept : world.Kept world') : world'.Decides P base addr frames :=
  ⟨decides.1, decides.2.mono kept⟩

/-- What is in the cache is decided, and what was known is in the cache. -/
structure SymbolWorld.Sound (P : Platform β) (base : U64 → Option (List SymbolicatedFrame))
    (world : SymbolWorld β) : Prop where
  decided : ∀ addr frames, world.cache.map addr = some frames → world.Decides P base addr frames
  known : ∀ addr frames, base addr = some frames → world.cache.map addr = some frames

/-! ## The frames of a row -/

/-- The frames are those of the addresses, one block for each. -/
def Blocks (ok : U64 → List SymbolicatedFrame → Prop) (addrs : List U64)
    (frames : List SymbolicatedFrame) : Prop :=
  ∃ blocks, List.Forall₂ ok (addrs.filter (· ≠ 0)) blocks ∧ frames = blocks.flatten

variable {ok ok' : U64 → List SymbolicatedFrame → Prop} {addrs : List U64}
  {block : List SymbolicatedFrame} {rows : List CallSiteStats}

theorem Blocks.nil : Blocks ok [] [] := ⟨[], .nil, rfl⟩

theorem Blocks.concat_zero (blocks : Blocks ok addrs frames) : Blocks ok (addrs ++ [0]) frames := by
  obtain ⟨parts, all, eq⟩ := blocks
  refine ⟨parts, ?_, eq⟩
  simpa using all

theorem Blocks.concat (blocks : Blocks ok addrs frames) (nonzero : addr ≠ 0) (next : ok addr block) :
    Blocks ok (addrs ++ [addr]) (frames ++ block) := by
  obtain ⟨parts, all, rfl⟩ := blocks
  refine ⟨parts ++ [block], ?_, ?_⟩
  · rw [List.filter_append, List.filter_singleton, decide_eq_true nonzero]
    exact List.rel_append all (.cons next .nil)
  · rw [List.flatten_append, List.flatten_singleton]

theorem Blocks.mono (weaker : ∀ addr block, ok addr block → ok' addr block)
    (blocks : Blocks ok addrs frames) : Blocks ok' addrs frames := by
  obtain ⟨parts, all, eq⟩ := blocks
  exact ⟨parts, all.imp weaker, eq⟩

/-- The first of the rows to do is done up to `addrs`. -/
def Begun (ok : U64 → List SymbolicatedFrame → Prop) (rows : List CallSiteStats)
    (frames : List SymbolicatedFrame) (addrs : List U64) : Prop :=
  ∃ row rest seen, rows = row :: rest ∧ row.trace = seen ++ addrs ∧ Blocks ok seen frames

theorem Begun.skip (begun : Begun ok rows frames (0 :: addrs)) : Begun ok rows frames addrs := by
  obtain ⟨row, rest, seen, current, parts, blocks⟩ := begun
  refine ⟨row, rest, seen ++ [0], current, ?_, blocks.concat_zero⟩
  rw [parts, List.append_assoc, List.singleton_append]

theorem Begun.next (begun : Begun ok rows frames (addr :: addrs)) (nonzero : addr ≠ 0)
    (next : ok addr block) : Begun ok rows (frames ++ block) addrs := by
  obtain ⟨row, rest, seen, current, parts, blocks⟩ := begun
  refine ⟨row, rest, seen ++ [addr], current, ?_, blocks.concat nonzero next⟩
  rw [parts, List.append_assoc, List.singleton_append]

theorem Begun.mono (weaker : ∀ addr block, ok addr block → ok' addr block)
    (begun : Begun ok rows frames addrs) : Begun ok' rows frames addrs := by
  obtain ⟨row, rest, seen, current, parts, blocks⟩ := begun
  exact ⟨row, rest, seen, current, parts, blocks.mono weaker⟩

/-- A row of the report, made from a raw one. -/
def RowMade (ok : U64 → List SymbolicatedFrame → Prop) (row : CallSiteStats)
    (site : SymbolicatedCallSite) : Prop :=
  site.count = row.count ∧ site.totalBytes = row.totalBytes ∧ Blocks ok row.trace site.frames

/-- What a call has done, where it is; `own` is what was known when it began. -/
def CourseOf (ok : U64 → List SymbolicatedFrame → Prop)
    (own : U64 → Option (List SymbolicatedFrame)) (c : ReportCall) : Prop :=
  match c.pc with
  | .row => True
  | .frame => Begun ok c.rows c.frames c.addrs
  | .lookup addr => addr ≠ 0 ∧ Begun ok c.rows c.frames (addr :: c.addrs)
  | .resolve addr => addr ≠ 0 ∧ own addr = none ∧ Begun ok c.rows c.frames (addr :: c.addrs)
  | .insert addr resolved => addr ≠ 0 ∧ ok addr resolved ∧ Begun ok c.rows c.frames (addr :: c.addrs)
  | .returned => c.rows = []

/-- The rows done are made from the raw ones. -/
structure Follows (ok : U64 → List SymbolicatedFrame → Prop)
    (own : U64 → Option (List SymbolicatedFrame)) (c : ReportCall) : Prop where
  done : ∃ done, c.raw = done ++ c.rows ∧ List.Forall₂ (RowMade ok) done c.out
  course : CourseOf ok own c

variable {cache cache' : AddressCache} {r r' : ReportCall} {R : U64 → List SymbolicatedFrame}

theorem Follows.init (raw : List CallSiteStats) : Follows ok own (.init raw) :=
  ⟨⟨[], rfl, .nil⟩, trivial⟩

theorem Follows.mono (weaker : ∀ addr block, ok addr block → ok' addr block)
    (follows : Follows ok own r) : Follows ok' own r := by
  obtain ⟨⟨done, parts, made⟩, course⟩ := follows
  refine ⟨⟨done, parts, made.imp fun row site h => ⟨h.1, h.2.1, h.2.2.mono weaker⟩⟩, ?_⟩
  unfold CourseOf at course ⊢
  cases pc : r.pc with
  | row => trivial
  | frame =>
      simp only [pc] at course
      exact course.mono weaker
  | lookup addr =>
      simp only [pc] at course
      exact ⟨course.1, course.2.mono weaker⟩
  | resolve addr =>
      simp only [pc] at course
      exact ⟨course.1, course.2.1, course.2.2.mono weaker⟩
  | insert addr resolved =>
      simp only [pc] at course
      exact ⟨course.1, weaker _ _ course.2.1, course.2.2.mono weaker⟩
  | returned =>
      simp only [pc] at course
      exact course

/-- A row of which every address is done. -/
theorem Begun.row {row : CallSiteStats} (begun : Begun ok (row :: rows) frames []) :
    RowMade ok row ⟨row.count, row.totalBytes, frames⟩ := by
  obtain ⟨_, _, seen, current, parts, blocks⟩ := begun
  cases current
  refine ⟨rfl, rfl, ?_⟩
  rw [parts, List.append_nil]
  exact blocks

/-- **A step of a report**, where what is cached is good, and what is resolved, too. The
cache is as before, or it has one more entry. -/
theorem Follows.step (follows : Follows ok own r)
    (cached : ∀ addr frames, cache.map addr = some frames → ok addr frames)
    (missed : ∀ addr, cache.map addr = none → own addr = none)
    (resolves : ∀ addr, r.pc = .resolve addr → own addr = none → ok addr (R addr))
    (stepped : r.step R cache = some (cache', r')) :
    Follows ok own r' ∧ (cache'.map = cache.map ∨ ∃ addr resolved, r.pc = .insert addr resolved ∧
      cache'.map = orInsert cache.map addr resolved) := by
  obtain ⟨⟨done, parts, made⟩, course⟩ := follows
  unfold CourseOf at course
  unfold ReportCall.step at stepped
  cases pc : r.pc with
  | row =>
      simp only [pc] at stepped
      cases rows : r.rows with
      | nil =>
          simp only [rows, Option.some.injEq, Prod.mk.injEq] at stepped
          obtain ⟨rfl, rfl⟩ := stepped
          exact ⟨⟨⟨done, parts.trans (by rw [rows]), made⟩, rfl⟩, .inl rfl⟩
      | cons row rest =>
          simp only [rows, Option.some.injEq, Prod.mk.injEq] at stepped
          obtain ⟨rfl, rfl⟩ := stepped
          exact ⟨⟨⟨done, parts.trans (by rw [rows]), made⟩, row, rest, [], rfl, rfl, .nil⟩, .inl rfl⟩
  | frame =>
      simp only [pc] at stepped course
      cases rest : r.addrs with
      | nil =>
          rw [rest] at course
          have begun := course
          obtain ⟨row, rows, _, current, _⟩ := course
          rw [current] at begun
          simp only [rest, current, Option.some.injEq, Prod.mk.injEq] at stepped
          obtain ⟨rfl, rfl⟩ := stepped
          refine ⟨⟨⟨done ++ [row], ?_, ?_⟩, trivial⟩, .inl rfl⟩
          · rw [parts, current, List.append_assoc]
            rfl
          · exact List.rel_append made (.cons begun.row .nil)
      | cons addr addrs =>
          rw [rest] at course
          by_cases zero : addr = 0
          · simp only [rest, zero, if_true, Option.some.injEq, Prod.mk.injEq] at stepped
            obtain ⟨rfl, rfl⟩ := stepped
            rw [zero] at course
            refine ⟨⟨⟨done, parts, made⟩, ?_⟩, .inl rfl⟩
            simp only [CourseOf]
            exact course.skip
          · simp only [rest, if_neg zero, Option.some.injEq, Prod.mk.injEq] at stepped
            obtain ⟨rfl, rfl⟩ := stepped
            exact ⟨⟨⟨done, parts, made⟩, zero, course⟩, .inl rfl⟩
  | lookup addr =>
      simp only [pc] at stepped course
      cases known : cache.map addr with
      | some frames =>
          simp only [known, Option.some.injEq, Prod.mk.injEq] at stepped
          obtain ⟨rfl, rfl⟩ := stepped
          exact ⟨⟨⟨done, parts, made⟩, course.2.next course.1 (cached addr frames known)⟩, .inl rfl⟩
      | none =>
          simp only [known, Option.some.injEq, Prod.mk.injEq] at stepped
          obtain ⟨rfl, rfl⟩ := stepped
          exact ⟨⟨⟨done, parts, made⟩, course.1, missed addr known, course.2⟩, .inl rfl⟩
  | resolve addr =>
      simp only [pc, Option.some.injEq, Prod.mk.injEq] at stepped course
      obtain ⟨rfl, rfl⟩ := stepped
      obtain ⟨nonzero, unknown, begun⟩ := course
      exact ⟨⟨⟨done, parts, made⟩, nonzero, resolves addr pc unknown, begun⟩, .inl rfl⟩
  | insert addr resolved =>
      simp only [pc, Option.some.injEq, Prod.mk.injEq] at stepped course
      obtain ⟨rfl, rfl⟩ := stepped
      obtain ⟨nonzero, good, begun⟩ := course
      exact ⟨⟨⟨done, parts, made⟩, begun.next nonzero good⟩, .inr ⟨addr, resolved, rfl, rfl⟩⟩
  | returned =>
      simp only [pc] at stepped
      cases stepped

/-! ## The cache -/

/-- An entry stays. -/
theorem orInsert_kept {map : U64 → Option (List SymbolicatedFrame)} {a : U64}
    (entry : map a = some frames) : orInsert map addr block a = some frames := by
  rw [orInsert]
  cases absent : map addr with
  | some _ => exact entry
  | none =>
      have other : a ≠ addr := by
        rintro rfl
        rw [absent] at entry
        cases entry
      exact (Function.update_of_ne other _ _).trans entry

/-- An entry was there, or it is the new one. -/
theorem orInsert_cases {map : U64 → Option (List SymbolicatedFrame)} {a : U64}
    (entry : orInsert map addr block a = some frames) :
    map a = some frames ∨ map addr = none ∧ a = addr ∧ frames = block := by
  rw [orInsert] at entry
  cases absent : map addr with
  | some _ =>
      simp only [absent] at entry
      exact .inl entry
  | none =>
      simp only [absent] at entry
      rcases eq_or_ne a addr with rfl | other
      · rw [Function.update_self] at entry
        exact .inr ⟨rfl, rfl, (Option.some.inj entry).symm⟩
      · rw [Function.update_of_ne other] at entry
        exact .inl entry

theorem agrees_of_unknown (unknown : base addr = none) :
    ∀ before, base addr = some before → frames = before := by
  intro before isKnown
  rw [unknown] at isKnown
  cases isKnown

theorem SymbolWorld.Sound.known_none (sound : world.Sound P base)
    (absent : world.cache.map addr = none) : base addr = none := by
  cases known : base addr with
  | none => rfl
  | some frames =>
      rw [sound.known addr frames known] at absent
      cases absent

/-- What a step does: it is one of the report, with what is in a cell of the thread. -/
theorem SymbolCall.step_cases (stepped : c.step P world answer = some (world', c')) :
    ∃ built, c.call.step (P.resolve built) world.cache = some (world'.cache, c'.call) ∧
      c'.index = c.index ∧ world.Kept world' ∧
      ∀ addr, c.call.pc = .resolve addr → world'.Gives P addr (P.resolve built addr) := by
  unfold SymbolCall.step at stepped
  cases pc : c.call.pc with
  | resolve addr =>
      simp only [pc] at stepped
      cases borrowed : P.refCell && answer.borrowed with
      | true =>
          simp only [borrowed, if_true] at stepped
          obtain ⟨⟨cache, call⟩, resolved, eq⟩ := Option.map_eq_some_iff.mp stepped
          cases eq
          exact ⟨none, resolved, rfl, ⟨fun _ _ built => built, fun _ => rfl⟩,
            fun _ _ => ⟨none, rfl, .inr ⟨rfl, rfl⟩⟩⟩
      | false =>
          simp only [borrowed, Bool.false_eq_true, if_false] at stepped
          obtain ⟨⟨cache, call⟩, resolved, eq⟩ := Option.map_eq_some_iff.mp stepped
          cases eq
          refine ⟨(world.cells (P.slot c.thread)).getD answer.built, resolved, rfl,
            ⟨fun slot built inCell => ?_, fun borrowed => borrowed⟩,
            fun _ _ => ⟨_, rfl, .inl ⟨P.slot c.thread, Function.update_self ..⟩⟩⟩
          dsimp only
          rcases eq_or_ne slot (P.slot c.thread) with rfl | other
          · rw [Function.update_self, inCell, Option.getD_some]
          · rw [Function.update_of_ne other, inCell]
  | row | frame | lookup | insert | returned =>
      simp only [pc] at stepped
      obtain ⟨⟨cache, call⟩, moved, eq⟩ := Option.map_eq_some_iff.mp stepped
      cases eq
      exact ⟨none, moved, rfl, ⟨fun _ _ built => built, fun borrowed => borrowed⟩,
        fun _ isResolve => by cases isResolve⟩

/-- **A step keeps the cache decided and its report on course.** -/
theorem SymbolCall.sound_step (known : ∀ addr frames, own addr = some frames → base addr = some frames)
    (sound : world.Sound P base) (follows : Follows (world.Decides P own) own c.call)
    (stepped : c.step P world answer = some (world', c')) :
    world.Kept world' ∧ world'.Sound P base ∧ Follows (world'.Decides P own) own c'.call ∧
      c'.index = c.index := by
  obtain ⟨built, moved, index, kept, gives⟩ := SymbolCall.step_cases stepped
  have follows' : Follows (world'.Decides P own) own c.call :=
    follows.mono fun _ _ decides => decides.mono kept
  obtain ⟨next, cache⟩ := follows'.step
    (fun addr frames entry =>
      have decides := (sound.decided addr frames entry).mono kept
      ⟨fun before isOwn => decides.1 before (known addr before isOwn), decides.2⟩)
    (fun addr absent => by
      have unknown := sound.known_none absent
      cases isOwn : own addr with
      | none => rfl
      | some frames =>
          rw [known addr frames isOwn] at unknown
          cases unknown)
    (fun addr pc unknown => ⟨agrees_of_unknown unknown, gives addr pc⟩)
    moved
  refine ⟨kept, ?_, next, index⟩
  rcases cache with same | ⟨addr, resolved, pc, inserted⟩
  · exact ⟨fun a fs entry => (sound.decided a fs (same ▸ entry)).mono kept,
      fun a fs isKnown => by rw [same]; exact sound.known a fs isKnown⟩
  · refine ⟨fun a fs entry => ?_, fun a fs isKnown => ?_⟩
    · rw [inserted] at entry
      rcases orInsert_cases entry with old | ⟨absent, rfl, rfl⟩
      · exact (sound.decided a fs old).mono kept
      · have unknown := sound.known_none absent
        have good := follows'.course
        simp only [CourseOf, pc] at good
        exact ⟨agrees_of_unknown unknown, good.2.1.2⟩
    · rw [inserted]
      exact orInsert_kept (sound.known a fs isKnown)

/-! ## Every run -/

variable {moves moves' : List (Move (Nat × List CallSiteStats) (SymbolAnswer β))} {s s' : SymbolState β}

/-- What was known when the call began: `base` for a call that is not among the first
`n`, and nothing for one that is. -/
def knownTo (base : U64 → Option (List SymbolicatedFrame)) (n index : Nat) :
    U64 → Option (List SymbolicatedFrame) := if index < n then fun _ => none else base

theorem base_of_knownTo {n index : Nat} (known : knownTo base n index addr = some frames) :
    base addr = some frames := by
  unfold knownTo at known
  split at known
  · cases known
  · exact known

/-- The first `n` calls began with nothing known, the others with `base`. -/
def SymbolCall.Sound (P : Platform β) (base : U64 → Option (List SymbolicatedFrame)) (n : Nat)
    (world : SymbolWorld β) (c : SymbolCall) : Prop :=
  Follows (world.Decides P (knownTo base n c.index)) (knownTo base n c.index) c.call

theorem symbolSound_of_exec {n : Nat} (run : (symbolProgram P).Exec anyMove s moves s')
    (sound : s.shared.Sound P base) (calls : Everywhere (SymbolCall.Sound P base n) s) :
    s'.shared.Sound P base ∧ Everywhere (SymbolCall.Sound P base n) s' := by
  have undisturbed : Undisturbed (symbolProgram P) anyMove (fun _ => True) (SymbolWorld.Sound P base)
      (SymbolCall.Sound P base n) :=
    { start_self := by
        intro s arg world c _ _ sound _ started
        cases started
        exact ⟨sound, .init arg.2⟩
      start_other := by
        intro s arg world c i d _ _ _ _ started _ follows
        cases started
        exact follows
      act_self := by
        intro s i c answer world c' _ _ sound _ follows acted
        obtain ⟨_, sound', next, index⟩ :=
          SymbolCall.sound_step (fun _ _ => base_of_knownTo) sound follows acted
        refine ⟨sound', ?_⟩
        rw [SymbolCall.Sound, index]
        exact next
      act_other := by
        intro s i c answer world c' j d _ _ sound _ follows acted _ _ other
        obtain ⟨kept, _⟩ := SymbolCall.sound_step (fun _ _ => base_of_knownTo) sound follows acted
        exact Follows.mono (fun _ _ decides => decides.mono kept) other }
  exact Exec.interference (fun _ _ _ _ _ _ => trivial) undisturbed run trivial ⟨sound, calls⟩

/-- A call keeps its place. -/
theorem symbolIndex_of_exec (run : (symbolProgram P).Exec anyMove SymbolState.initial moves s) {i : Nat}
    (at_i : s.procs[i]? = some c) : c.index = i := by
  refine Exec.localInvariant (fun i c => SymbolCall.index c = i) ?_ ?_ run
    (fun i c at_i => by cases at_i) i c at_i
  · intro s arg world c _ started
    cases started
    rfl
  · intro world i c answer world' c' acted index
    obtain ⟨_, _, same, _⟩ := SymbolCall.step_cases acted
    exact same.trans index

/-- A call that begins after `s` goes by what the cache held there. -/
theorem follows_of_exec (run : (symbolProgram P).Exec anyMove SymbolState.initial moves s)
    (rest : (symbolProgram P).Exec anyMove s moves' s') {i : Nat} (later : s.procs.length ≤ i)
    (at_i : s'.procs[i]? = some c) :
    Follows (s'.shared.Decides P s.shared.cache.map) s.shared.cache.map c.call := by
  have fresh : SymbolState.initial.shared.Sound P fun _ => none :=
    ⟨fun _ _ entry => (nomatch entry), fun _ _ isKnown => (nomatch isKnown)⟩
  obtain ⟨sound, calls⟩ := symbolSound_of_exec (n := 0) run fresh fun i c at_i => by cases at_i
  have nothing : ∀ n index, knownTo (fun _ => none) n index = fun _ => none := by
    intro n index
    rw [knownTo, ite_self]
  have sound' : s.shared.Sound P s.shared.cache.map :=
    ⟨fun addr frames entry => ⟨fun before isKnown => Option.some.inj (entry.symm.trans isKnown),
      (sound.decided addr frames entry).2⟩, fun _ _ isKnown => isKnown⟩
  have calls' : Everywhere (SymbolCall.Sound P s.shared.cache.map s.procs.length) s := by
    intro j d at_j
    have began : d.index < s.procs.length := by
      rw [symbolIndex_of_exec run at_j]
      exact (List.getElem?_eq_some_iff.mp at_j).1
    have follows := calls j d at_j
    rw [SymbolCall.Sound, nothing] at follows
    rw [SymbolCall.Sound, knownTo, if_pos began]
    exact follows
  have follows := (symbolSound_of_exec rest sound' calls').2 i c at_i
  rw [SymbolCall.Sound, symbolIndex_of_exec (run.append rest) at_i, knownTo,
    if_neg (Nat.not_lt.mpr later)] at follows
  exact follows

/-! ## The document -/

/-- The lines of a site for one address of its trace. -/
structure LinesFor (P : Platform β) (world : SymbolWorld β)
    (known : U64 → Option (List SymbolicatedFrame)) (addr : U64) (lines : List (List Char)) : Prop where
  nonempty : lines ≠ []
  address : ∀ line ∈ lines, readAddress line = some addr.toNat
  frames : ∃ frames, lines = frames.map formatSymbolicatedFrame ∧ world.Decides P known addr frames

/-- A site with the counts of a row, and lines for each address of its trace. -/
structure Shows (P : Platform β) (world : SymbolWorld β)
    (known : U64 → Option (List SymbolicatedFrame)) (row : CallSiteStats) (site : Site) : Prop where
  totalBytes : site.totalBytes = row.totalBytes.toNat
  count : site.count = row.count.toNat
  frames : ∃ blocks, site.frames = blocks.flatten ∧
    List.Forall₂ (LinesFor P world known) (row.trace.filter (· ≠ 0)) blocks

theorem readAddress_formatSymbolicatedFrame (frame : SymbolicatedFrame) :
    readAddress (formatSymbolicatedFrame frame) = some frame.address.toNat := by
  obtain ⟨rest, text⟩ := formatSymbolicatedFrame_eq frame
  rw [text]
  exact readAddress_formatAddress _ _

theorem SymbolWorld.Decides.lines (decides : world.Decides P base addr frames) :
    LinesFor P world base addr (frames.map formatSymbolicatedFrame) := by
  obtain ⟨built, eq, _⟩ := decides.2
  have resolved := P.resolved built addr
  rw [← eq] at resolved
  obtain ⟨f, inlined, shape, _⟩ := resolved.physical
  refine ⟨?_, fun line inLines => ?_, frames, rfl, decides⟩
  · rw [shape, List.map_cons]
    exact List.cons_ne_nil _ _
  · obtain ⟨f, inFrames, rfl⟩ := List.mem_map.mp inLines
    rw [readAddress_formatSymbolicatedFrame, resolved.address f inFrames]

theorem RowMade.shows {row : CallSiteStats} {site : SymbolicatedCallSite}
    (made : RowMade (world.Decides P base) row site) : Shows P world base row site.row.site := by
  obtain ⟨count, bytes, blocks, all, flat⟩ := made
  refine ⟨congrArg (fun w : U64 => (w.toNat : ℤ)) bytes, congrArg (fun w : U64 => (w.toNat : ℤ)) count,
    blocks.map (List.map formatSymbolicatedFrame), ?_, ?_⟩
  · rw [← List.map_flatten, ← flat]
    exact List.map_map
  · rw [List.forall₂_map_right_iff]
    exact all.imp fun _ _ decides => decides.lines

/-- With one symbolicator for all, it resolves every address. -/
theorem RowMade.exact {exe : β} {row : CallSiteStats} {site : SymbolicatedCallSite}
    (same : ∀ slot built, world.cells slot = some built → built = some exe)
    (unborrowed : world.borrowed = false) (made : RowMade (world.Decides P base) row site) :
    site.frames = resolveAll (P.resolve (some exe)) row.trace := by
  obtain ⟨_, _, blocks, all, flat⟩ := made
  have resolves : ∀ addr frames, world.Decides P base addr frames → P.resolve (some exe) addr = frames := by
    rintro addr frames ⟨_, built, rfl, ⟨slot, inCell⟩ | ⟨_, borrowed⟩⟩
    · rw [same slot built inCell]
    · rw [unborrowed] at borrowed
      cases borrowed
  have isMap : (row.trace.filter (· ≠ 0)).map (P.resolve (some exe)) = blocks := by
    rw [← List.forall₂_eq_eq_eq, List.forall₂_map_left_iff]
    exact all.imp resolves
  rw [flat, ← isMap, resolveAll, List.flatMap_def]

/-- **The symbolicated document.** Read back, it has a site for each row that the report
was made from, with its counts and, for each address of its trace in order, lines that
begin with the address and show what some thread has resolved it to; what the cache held
when the report began is what the document shows. Where all threads have the same
symbolicator, the document shows what that one resolves, as if there were no cache. -/
theorem symbolicated_document (run : (symbolProgram P).Exec anyMove SymbolState.initial moves s)
    (rest : (symbolProgram P).Exec anyMove s moves' s') {i : Nat} (later : s.procs.length ≤ i)
    (at_i : s'.procs[i]? = some c) (returned : c.call.pc = .returned)
    (few : (Report.symbolicated c.call.out).strings.eraseDups.length < 2 ^ 32 - 1)
    (args : List (List Char)) (pid : U32) :
    ∃ sites, readSites (dhatJsonString args pid (.symbolicated c.call.out)) = some sites ∧
      List.Forall₂ (Shows P s'.shared s.shared.cache.map) c.call.raw sites ∧
      ∀ exe, (∀ slot built, s'.shared.cells slot = some built → built = some exe) →
        s'.shared.borrowed = false →
        sites = c.call.raw.map fun row => ⟨row.totalBytes.toNat, row.count.toNat,
          (resolveAll (P.resolve (some exe)) row.trace).map formatSymbolicatedFrame⟩ := by
  obtain ⟨⟨done, parts, made⟩, course⟩ := follows_of_exec run rest later at_i
  simp only [CourseOf, returned] at course
  rw [course, List.append_nil] at parts
  rw [← parts] at made
  refine ⟨_, readSites_dhatJsonString args pid few, ?_, fun exe same unborrowed => ?_⟩
  · rw [Report.rows, List.map_map, List.forall₂_map_right_iff]
    exact made.imp fun _ _ rowMade => rowMade.shows
  · rw [Report.rows, List.map_map, ← List.forall₂_eq_eq_eq, List.forall₂_map_left_iff,
      List.forall₂_map_right_iff]
    refine made.flip.imp fun site row rowMade => ?_
    have frames := RowMade.exact same unborrowed rowMade
    obtain ⟨count, bytes, _⟩ := rowMade
    rw [← count, ← bytes, ← frames]
    exact congrArg (Site.mk _ _) List.map_map

/-! One thread has resolved an address. A second one cannot build its symbolicator: it
finds that address in the cache, and another one unresolved. -/

def mainSymbols : Unix.Symbolicator := ⟨fun _ => some [⟨some "main".toList, none⟩]⟩

def siteOf (frames : Frames) : CallSiteStats := ⟨frames.frames, frames.count, 1, 16⟩

def resolvedMoves : List (Move (Nat × List CallSiteStats) (SymbolAnswer Unix.Symbolicator)) :=
  .start (1, [siteOf (Frames.empty.push 0x401000)]) ::
    List.replicate 7 (.act 0 ⟨false, some mainSymbols⟩)

def resolvedEnd : SymbolState Unix.Symbolicator :=
  ((symbolProgram (unix id)).run anyMove SymbolState.initial resolvedMoves).get (by decide +kernel)

def unresolvedMoves : List (Move (Nat × List CallSiteStats) (SymbolAnswer Unix.Symbolicator)) :=
  .start (0, [siteOf ((Frames.empty.push 0x401000).push 0x402000)]) ::
    List.replicate 9 (.act 1 ⟨false, none⟩)

def unresolvedEnd : SymbolState Unix.Symbolicator :=
  ((symbolProgram (unix id)).run anyMove resolvedEnd unresolvedMoves).get (by decide +kernel)

/-- The report of the second thread. -/
def secondReport : SymbolCall := (unresolvedEnd.procs[1]?).get (by decide +kernel)

theorem symbolicated_document_second :
    secondReport.call.out.map SymbolicatedCallSite.frames =
        [[⟨0x401000, some "main".toList, none, none, false⟩, ⟨0x402000, none, none, none, false⟩]] ∧
      ∃ sites, readSites (dhatJsonString [] 1 (.symbolicated secondReport.call.out)) = some sites ∧
        List.Forall₂ (Shows (unix id) unresolvedEnd.shared resolvedEnd.shared.cache.map)
          secondReport.call.raw sites := by
  have run : (symbolProgram (unix id)).Exec anyMove SymbolState.initial resolvedMoves resolvedEnd :=
    Exec.of_run (Option.some_get _).symm
  have rest : (symbolProgram (unix id)).Exec anyMove resolvedEnd unresolvedMoves unresolvedEnd :=
    Exec.of_run (Option.some_get _).symm
  have later : resolvedEnd.procs.length ≤ 1 := by decide +kernel
  have at_second : unresolvedEnd.procs[1]? = some secondReport := (Option.some_get _).symm
  have returned : secondReport.call.pc = .returned := by decide +kernel
  have few : (Report.symbolicated secondReport.call.out).strings.eraseDups.length < 2 ^ 32 - 1 := by
    decide +kernel
  have out : secondReport.call.out.map SymbolicatedCallSite.frames =
      [[⟨0x401000, some "main".toList, none, none, false⟩,
        ⟨0x402000, none, none, none, false⟩]] := by decide +kernel
  obtain ⟨sites, isRead, shows, _⟩ :=
    symbolicated_document run rest later at_second returned few [] 1
  exact ⟨out, sites, isRead, shows⟩

end Symbolicate

end ModAlloc
