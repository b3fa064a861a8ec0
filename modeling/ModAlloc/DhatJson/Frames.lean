import ModAlloc.Backtrace.Table
import ModAlloc.DhatJson.Writer
import ModAlloc.Lib.FirstOccurrence

/-!
# The frame table

`build` turns a report into the frame table and the program points that refer to it.
The rows of the report are raw or symbolicated, depending on the `symbolicate`
feature. Either way the table has `[root]` and then the frame strings in order of
first occurrence, and the program points hold their numbers (`build_eq`), so that
nothing of the report is lost (`build_lossless`).
-/

namespace ModAlloc

namespace DhatJson

open FirstOccurrence

/-- `u32`, its arithmetic modulo `2 ^ 32`. -/
abbrev U32 := BitVec 32

structure ProgramPoint where
  totalBytes : U64
  count : U64
  frameIndices : List U32
deriving DecidableEq

/-- `entries`, and the `HashMap` from a frame string to its index. -/
structure FrameTable where
  entries : List (List Char)
  internMap : List Char → Option U32

def root : List Char := "[root]".toList

namespace FrameTable

def new : FrameTable := ⟨[root], fun _ => none⟩

def intern (ftbl : FrameTable) (frame : List Char) : FrameTable × U32 :=
  match ftbl.internMap frame with
  | some idx => (ftbl, idx)
  | none =>
      let idx := BitVec.ofNat 32 ftbl.entries.length
      (⟨ftbl.entries ++ [frame], Function.update ftbl.internMap frame (some idx)⟩, idx)

end FrameTable

/-! ## The frames of a report -/

/-- One resolved frame. The file is as `Path::display` shows it. -/
structure SymbolicatedFrame where
  address : U64
  function : Option (List Char)
  file : Option (List Char)
  line : Option U32
  inlined : Bool
deriving DecidableEq

structure SymbolicatedCallSite where
  count : U64
  totalBytes : U64
  frames : List SymbolicatedFrame
deriving DecidableEq

/-- What both formats begin with. -/
def formatAddress (addr : U64) : List Char := "0x".toList ++ lowerHex 0 addr.toNat ++ ": ".toList

def formatRawFrame (addr : U64) : List Char := formatAddress addr ++ "<unresolved>".toList

def formatSymbolicatedFrame (frame : SymbolicatedFrame) : List Char :=
  let s := formatAddress frame.address
  let s := match frame.function with
    | some name => s ++ name
    | none => s ++ "<unresolved fn>".toList
  let s := if frame.inlined then s ++ " [inlined]".toList else s
  match frame.file with
  | some file =>
      let s := s ++ " (".toList ++ file ++ [':']
      let s := match frame.line with
        | some line => s ++ Nat.toDigits 10 line.toNat
        | none => s ++ ['?']
      s ++ [')']
  | none => s

/-- The rows that `build` drains: symbolicated ones with the `symbolicate` feature,
raw ones without. -/
inductive Report where
  | raw (rows : List CallSiteStats)
  | symbolicated (rows : List SymbolicatedCallSite)

/-! ## `build` -/

/-- The body of the loop over the frames of a row. -/
def internFrame (acc : FrameTable × List U32) (s : List Char) : FrameTable × List U32 :=
  let (ftbl, indices) := acc
  let (ftbl, idx) := ftbl.intern s
  (ftbl, indices ++ [idx])

def internFrames (ftbl : FrameTable) (frames : List (List Char)) : FrameTable × List U32 :=
  frames.foldl internFrame (ftbl, [])

/-- The body of the loop over the rows. -/
def pushSite (acc : FrameTable × List ProgramPoint) (frames : List (List Char))
    (totalBytes count : U64) : FrameTable × List ProgramPoint :=
  let (ftbl, pps) := acc
  let (ftbl, indices) := internFrames ftbl frames
  (ftbl, pps ++ [⟨totalBytes, count, indices⟩])

def build (report : Report) : FrameTable × List ProgramPoint :=
  match report with
  | .symbolicated rows =>
      rows.foldl (fun acc site =>
        pushSite acc (site.frames.map formatSymbolicatedFrame) site.totalBytes site.count)
        (FrameTable.new, [])
  | .raw rows =>
      rows.foldl (fun acc site =>
        pushSite acc (site.trace.map formatRawFrame) site.totalBytes site.count)
        (FrameTable.new, [])

/-! ## What the rows say -/

/-- A row of either kind: the address and the string of each frame, and the totals. -/
structure Row where
  frames : List (U64 × List Char)
  totalBytes : U64
  count : U64

def rawRow (site : CallSiteStats) : Row :=
  ⟨site.trace.map fun addr => (addr, formatRawFrame addr), site.totalBytes, site.count⟩

def SymbolicatedCallSite.row (site : SymbolicatedCallSite) : Row :=
  ⟨site.frames.map fun frame => (frame.address, formatSymbolicatedFrame frame), site.totalBytes,
    site.count⟩

def Report.rows : Report → List Row
  | .raw rows => rows.map rawRow
  | .symbolicated rows => rows.map SymbolicatedCallSite.row

def Row.strings (row : Row) : List (List Char) := row.frames.map Prod.snd

/-- The frame strings of the report, in order. -/
def Report.strings (report : Report) : List (List Char) := report.rows.flatMap Row.strings

/-! ## The table in closed form -/

/-- The index of a frame string among those that have been interned. -/
def index (seen : List (List Char)) (s : List Char) : U32 := BitVec.ofNat 32 (rank seen s + 1)

/-- The table with the strings interned so far. -/
def FrameTable.ofStrings (seen : List (List Char)) : FrameTable :=
  ⟨root :: seen.eraseDups, fun s => if s ∈ seen then some (index seen s) else none⟩

theorem index_append {seen : List (List Char)} {s : List Char} (mem : s ∈ seen)
    (more : List (List Char)) : index (seen ++ more) s = index seen s := by
  rw [index, rank_append mem, index]

theorem new_eq : FrameTable.new = FrameTable.ofStrings [] := rfl

theorem intern_ofStrings (seen : List (List Char)) (s : List Char) :
    (FrameTable.ofStrings seen).intern s =
      (FrameTable.ofStrings (seen ++ [s]), index (seen ++ [s]) s) := by
  by_cases old : s ∈ seen
  · have entries : (seen ++ [s]).eraseDups = seen.eraseDups := by
      rw [eraseDups_concat, if_pos old]
    have indices : ∀ u, u ∈ seen ++ [s] ↔ u ∈ seen := by
      intro u
      simp only [List.mem_append, List.mem_singleton, or_iff_left_iff_imp]
      rintro rfl
      exact old
    have same : index (seen ++ [s]) = index seen := by
      funext u
      rw [index, rank, entries, index, rank]
    simp only [FrameTable.intern, FrameTable.ofStrings, if_pos old, entries, indices, same]
  · have next : BitVec.ofNat 32 (root :: seen.eraseDups).length = index (seen ++ [s]) s := by
      rw [List.length_cons, index, rank_concat old]
    have indices : Function.update (fun u => if u ∈ seen then some (index seen u) else none) s
        (some (index (seen ++ [s]) s)) =
          fun u => if u ∈ seen ++ [s] then some (index (seen ++ [s]) u) else none := by
      funext u
      rcases eq_or_ne u s with rfl | other
      · rw [Function.update_self, if_pos (List.mem_append_right _ List.mem_cons_self)]
      · rw [Function.update_of_ne other]
        by_cases known : u ∈ seen
        · rw [if_pos known, if_pos (List.mem_append_left _ known), index_append known]
        · rw [if_neg known, if_neg]
          simp only [List.mem_append, List.mem_singleton, known, other, or_self, not_false_eq_true]
    simp only [FrameTable.intern, FrameTable.ofStrings, if_neg old, next, indices, eraseDups_concat,
      List.cons_append]

theorem internFrame_ofStrings (seen : List (List Char)) (indices : List U32) (s : List Char) :
    internFrame (FrameTable.ofStrings seen, indices) s =
      (FrameTable.ofStrings (seen ++ [s]), indices ++ [index (seen ++ [s]) s]) := by
  simp only [internFrame, intern_ofStrings]

theorem foldl_internFrame (seen frames : List (List Char)) (indices : List U32) :
    frames.foldl internFrame (FrameTable.ofStrings seen, indices) =
      (FrameTable.ofStrings (seen ++ frames), indices ++ frames.map (index (seen ++ frames))) := by
  induction frames generalizing seen indices with
  | nil => rw [List.foldl_nil, List.append_nil, List.map_nil, List.append_nil]
  | cons s frames ih =>
      have split : seen ++ s :: frames = seen ++ [s] ++ frames := by
        rw [List.append_assoc, List.singleton_append]
      have given : index (seen ++ [s] ++ frames) s = index (seen ++ [s]) s :=
        index_append (List.mem_append_right _ List.mem_cons_self) frames
      rw [List.foldl_cons, internFrame_ofStrings, ih, split, List.map_cons, given,
        List.append_assoc indices, List.singleton_append]

/-- The program point of a row, once the table has all strings. -/
def point (strings : List (List Char)) (row : Row) : ProgramPoint :=
  ⟨row.totalBytes, row.count, row.strings.map (index strings)⟩

theorem pushSite_ofStrings (seen : List (List Char)) (pps : List ProgramPoint) (row : Row) :
    pushSite (FrameTable.ofStrings seen, pps) row.strings row.totalBytes row.count =
      (FrameTable.ofStrings (seen ++ row.strings), pps ++ [point (seen ++ row.strings) row]) := by
  simp only [pushSite, internFrames, foldl_internFrame, List.nil_append, point]

theorem foldl_pushSite (rows : List Row) (seen : List (List Char)) (pps : List ProgramPoint) :
    rows.foldl (fun acc row => pushSite acc row.strings row.totalBytes row.count)
        (FrameTable.ofStrings seen, pps) =
      (FrameTable.ofStrings (seen ++ rows.flatMap Row.strings),
        pps ++ rows.map (point (seen ++ rows.flatMap Row.strings))) := by
  induction rows generalizing seen pps with
  | nil => rw [List.foldl_nil, List.flatMap_nil, List.append_nil, List.map_nil, List.append_nil]
  | cons row rows ih =>
      have given : point (seen ++ row.strings ++ rows.flatMap Row.strings) row =
          point (seen ++ row.strings) row := by
        refine congrArg (ProgramPoint.mk _ _) (List.map_congr_left fun s inRow => ?_)
        exact index_append (List.mem_append_right _ inRow) _
      rw [List.foldl_cons, pushSite_ofStrings, ih, List.flatMap_cons, ← List.append_assoc,
        List.map_cons, given, List.append_assoc pps, List.singleton_append]

/-- **The table has the frame strings in order of first occurrence, and the program
points their numbers.** -/
theorem build_eq (report : Report) :
    build report =
      (FrameTable.ofStrings report.strings, report.rows.map (point report.strings)) := by
  have loop := foldl_pushSite report.rows [] []
  rw [List.nil_append, List.nil_append] at loop
  rw [Report.strings, ← loop, ← new_eq]
  cases report with
  | raw rows =>
      rw [Report.rows, List.foldl_map]
      simp only [build, rawRow, Row.strings, List.map_map]
      rfl
  | symbolicated rows =>
      rw [Report.rows, List.foldl_map]
      simp only [build, SymbolicatedCallSite.row, Row.strings, List.map_map]
      rfl

/-! ## Reading the addresses back -/

def pushHexDigit (n : Nat) (c : Char) : Option Nat := (Json.hexDigit c).map fun d => n * 16 + d

/-- The hexadecimal number between `0x` and the first `:`. -/
def readAddress (s : List Char) : Option Nat :=
  match s with
  | '0' :: 'x' :: s => (s.takeWhile (· ≠ ':')).foldlM pushHexDigit 0
  | _ => none

theorem hexDigit_digitChar {d : Nat} (digit : d < 16) : Json.hexDigit d.digitChar = some d := by
  interval_cases d <;> decide

theorem foldlM_toDigits (n : Nat) : (Nat.toDigits 16 n).foldlM pushHexDigit 0 = some n := by
  induction n using Nat.strong_induction_on with
  | _ n ih =>
      rcases Nat.lt_or_ge n 16 with small | large
      · rw [Nat.toDigits_of_lt_base small]
        simp only [List.foldlM_cons, List.foldlM_nil, pushHexDigit, hexDigit_digitChar small,
          Option.map_some, Option.bind_eq_bind, Option.bind_some, Nat.zero_mul, Nat.zero_add]
        rfl
      · rw [Nat.toDigits_of_base_le (by decide) large, List.foldlM_append, ih (n / 16) (by omega)]
        have digit := hexDigit_digitChar (Nat.mod_lt n (show 0 < 16 by decide))
        simp only [List.foldlM_cons, List.foldlM_nil, pushHexDigit, digit, Option.map_some,
          Option.bind_eq_bind, Option.bind_some]
        exact congrArg some (by omega)

theorem toDigits_ne_colon (n : Nat) : ∀ c ∈ Nat.toDigits 16 n, c ≠ ':' := by
  induction n using Nat.strong_induction_on with
  | _ n ih =>
      have digit : ∀ d < 16, d.digitChar ≠ ':' := by decide
      rcases Nat.lt_or_ge n 16 with small | large
      · rw [Nat.toDigits_of_lt_base small]
        intro c inDigits
        rw [List.mem_singleton.mp inDigits]
        exact digit n small
      · rw [Nat.toDigits_of_base_le (by decide) large]
        intro c inDigits
        rcases List.mem_append.mp inDigits with before | last
        · exact ih (n / 16) (by omega) c before
        · rw [List.mem_singleton.mp last]
          exact digit _ (Nat.mod_lt n (by decide))

/-- **Whatever follows, the address is read back.** -/
theorem readAddress_formatAddress (addr : U64) (rest : List Char) :
    readAddress (formatAddress addr ++ rest) = some addr.toNat := by
  have digits : lowerHex 0 addr.toNat = Nat.toDigits 16 addr.toNat := by
    simp [lowerHex, List.leftpad]
  have text : formatAddress addr ++ rest =
      '0' :: 'x' :: (Nat.toDigits 16 addr.toNat ++ ':' :: ' ' :: rest) := by
    rw [formatAddress, digits, List.append_assoc]
    rfl
  have ends : (Nat.toDigits 16 addr.toNat ++ ':' :: ' ' :: rest).takeWhile (· ≠ ':') =
      Nat.toDigits 16 addr.toNat := by
    rw [List.takeWhile_append_of_pos]
    · simp
    · intro c inDigits
      exact decide_eq_true (toDigits_ne_colon _ c inDigits)
  rw [text, readAddress, ends, foldlM_toDigits]

/-! ## Nothing is lost -/

/-- What a table and its program points keep of a report. -/
structure Lossless (report : Report) (ftbl : FrameTable) (pps : List ProgramPoint) : Prop where
  /-- One program point for each row, with its totals, and one index for each frame. -/
  rows : List.Forall₂ (fun (row : Row) (pp : ProgramPoint) =>
    pp.totalBytes = row.totalBytes ∧ pp.count = row.count ∧
      List.Forall₂ (fun (frame : U64 × List Char) (idx : U32) =>
        ftbl.entries[idx.toNat]? = some frame.2 ∧ readAddress frame.2 = some frame.1.toNat ∧
          idx ≠ 0) row.frames pp.frameIndices) report.rows pps
  root : ftbl.entries[0]? = some root
  distinct : ftbl.entries.Nodup
  referenced : ∀ i, 0 < i → i < ftbl.entries.length →
    ∃ pp ∈ pps, ∃ idx ∈ pp.frameIndices, idx.toNat = i

theorem formatSymbolicatedFrame_eq (frame : SymbolicatedFrame) :
    ∃ rest, formatSymbolicatedFrame frame = formatAddress frame.address ++ rest := by
  unfold formatSymbolicatedFrame
  cases frame.function <;> cases frame.inlined <;> cases frame.file <;> cases frame.line <;>
    simp only [if_true, if_false, Bool.false_eq_true, List.append_assoc] <;> exact ⟨_, rfl⟩

/-- A frame string begins with the address of its frame. -/
theorem readAddress_of_row {report : Report} {row : Row} (inRows : row ∈ report.rows)
    {frame : U64 × List Char} (inFrames : frame ∈ row.frames) :
    readAddress frame.2 = some frame.1.toNat := by
  cases report with
  | raw rows =>
      obtain ⟨site, _, rfl⟩ := List.mem_map.mp inRows
      obtain ⟨addr, _, rfl⟩ := List.mem_map.mp inFrames
      exact readAddress_formatAddress addr _
  | symbolicated rows =>
      obtain ⟨site, _, rfl⟩ := List.mem_map.mp inRows
      obtain ⟨resolved, _, rfl⟩ := List.mem_map.mp inFrames
      obtain ⟨rest, text⟩ := formatSymbolicatedFrame_eq resolved
      show readAddress (formatSymbolicatedFrame resolved) = _
      rw [text]
      exact readAddress_formatAddress _ _

theorem mem_strings {report : Report} {s : List Char} :
    s ∈ report.strings ↔ ∃ row ∈ report.rows, ∃ frame ∈ row.frames, frame.2 = s := by
  simp only [Report.strings, List.mem_flatMap, Row.strings, List.mem_map]

theorem root_not_mem_strings (report : Report) : root ∉ report.strings := by
  intro isString
  obtain ⟨row, inRows, frame, inFrames, isRoot⟩ := mem_strings.mp isString
  have address := readAddress_of_row inRows inFrames
  rw [isRoot] at address
  have none : readAddress root = .none := by decide
  rw [none] at address
  cases address

theorem toNat_index {strings : List (List Char)} (few : strings.eraseDups.length < 2 ^ 32 - 1)
    {s : List Char} (isString : s ∈ strings) :
    (index strings s).toNat = rank strings s + 1 := by
  have := rank_lt isString
  rw [index, BitVec.toNat_ofNat]
  exact Nat.mod_eq_of_lt (by omega)

/-- A million raw rows and more do not have too many frames for a `u32`. -/
theorem strings_few_of_rows {rows : List CallSiteStats} (few : rows.length ≤ 2 ^ 20) :
    (Report.raw rows).strings.eraseDups.length < 2 ^ 32 - 1 := by
  have frames : ∀ n ∈ rows.map (fun row => (rawRow row).strings.length), n ≤ 8 := by
    intro n inMap
    obtain ⟨row, _, rfl⟩ := List.mem_map.mp inMap
    rw [Row.strings, rawRow, List.length_map, List.length_map, CallSiteStats.trace, List.length_take]
    omega
  have strings : (Report.raw rows).strings.length ≤ 8 * 2 ^ 20 := by
    have sum := List.sum_le_card_nsmul _ _ frames
    rw [List.length_map, smul_eq_mul] at sum
    rw [Report.strings, Report.rows, List.length_flatMap, List.map_map]
    show (rows.map (fun row => (rawRow row).strings.length)).sum ≤ _
    omega
  have := length_eraseDups_le (Report.raw rows).strings
  omega

/-- The index of a frame string finds it. -/
theorem getElem?_index {strings : List (List Char)} (few : strings.eraseDups.length < 2 ^ 32 - 1)
    {s : List Char} (isString : s ∈ strings) :
    (FrameTable.ofStrings strings).entries[(index strings s).toNat]? = some s := by
  rw [toNat_index few isString]
  exact getElem?_rank isString

/-- **The frame table loses nothing**, as long as its indices fit into a `u32`. -/
theorem build_lossless (report : Report) (few : report.strings.eraseDups.length < 2 ^ 32 - 1) :
    Lossless report (build report).1 (build report).2 := by
  rw [build_eq]
  refine ⟨?_, rfl, ?_, ?_⟩
  · rw [List.forall₂_map_right_iff, List.forall₂_same]
    intro row inRows
    refine ⟨rfl, rfl, ?_⟩
    rw [point, Row.strings, List.map_map, List.forall₂_map_right_iff, List.forall₂_same]
    intro frame inFrames
    have isString : frame.2 ∈ report.strings := mem_strings.mpr ⟨row, inRows, frame, inFrames, rfl⟩
    refine ⟨getElem?_index few isString, readAddress_of_row inRows inFrames, ?_⟩
    · intro zero
      have := toNat_index few isString
      rw [Function.comp_apply] at zero
      rw [zero] at this
      cases this
  · refine List.nodup_cons.mpr ⟨fun isRoot => ?_, nodup_eraseDups _⟩
    exact root_not_mem_strings report (List.mem_eraseDups.mp isRoot)
  · intro i pos bound
    rw [FrameTable.ofStrings, List.length_cons] at bound
    obtain ⟨s, isString, number⟩ :=
      exists_rank_eq (l := report.strings) (i := i - 1) (by omega)
    obtain ⟨row, inRows, frame, inFrames, rfl⟩ := mem_strings.mp isString
    refine ⟨_, List.mem_map_of_mem inRows, index report.strings frame.2, ?_, ?_⟩
    · exact List.mem_map_of_mem (List.mem_map_of_mem inFrames)
    · rw [toNat_index few isString]
      omega

/-- Two sites that share a frame. -/
theorem build_lossless_shared :
    let site : CallSiteStats := ⟨#v[0x401000, 0x402000, 0, 0, 0, 0, 0, 0], 2, 3, 48⟩
    let other : CallSiteStats := ⟨#v[0x403000, 0x402000, 0, 0, 0, 0, 0, 0], 2, 1, 8⟩
    Lossless (.raw [site, other]) (build (.raw [site, other])).1 (build (.raw [site, other])).2 :=
  build_lossless _ (by decide)

end DhatJson

end ModAlloc
