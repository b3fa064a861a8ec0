import ModAlloc.DhatJson.Frames
import ModAlloc.Lib.Json.Parser

/-!
# The heap JSON document

`render` writes the frame table and the program points as a DHAT document, comma by
comma. What it has written is one JSON object that says what was given to it
(`render_decodes`): its members are written one by one (`render_eq`), each as a key
and a text that says the value (`Field`). Read back through its own frame table, it
lists the call sites of the report (`readSites_dhatJsonString`).
-/

namespace ModAlloc

namespace DhatJson

open Json

/-- The loops over `iter().enumerate()`, with a comma before every item but the first. -/
def writeItems {α : Type} (write : List Char → α → List Char) (out : List Char) (xs : List α) :
    List Char :=
  xs.zipIdx.foldl (fun out (x, i) =>
    let out := if i > 0 then out ++ [','] else out
    write out x) out

/-- `write!(out, "{}", n)` for an unsigned number. -/
def writeNumber (out : List Char) (n : Nat) : List Char := out ++ Nat.toDigits 10 n

def writePp (out : List Char) (pp : ProgramPoint) : List Char :=
  let out := out ++ ['{']
  let out := writeKey out "tb".toList
  let out := writeNumber out pp.totalBytes.toNat ++ [',']
  let out := writeKey out "tbk".toList
  let out := writeNumber out pp.count.toNat ++ [',']
  let out := writeKey out "eb".toList
  let out := out ++ "0,".toList
  let out := writeKey out "ebk".toList
  let out := out ++ "0,".toList
  let out := writeKey out "fs".toList
  let out := out ++ ['[']
  let out := writeItems (fun out idx => writeNumber out idx.toNat) out pp.frameIndices
  let out := out ++ [']']
  out ++ ['}']

/-- `current_cmd` for the arguments of the process, as `to_string_lossy` shows them. -/
def currentCmd (args : List (List Char)) : List Char :=
  match args with
  | [] => "<unknown>".toList
  | first :: parts => parts.foldl (fun out arg => out ++ [' '] ++ arg) first

theorem currentCmd_nil : currentCmd [] = "<unknown>".toList := rfl

theorem currentCmd_cons (first : List Char) (parts : List (List Char)) :
    currentCmd (first :: parts) = parts.foldl (fun out arg => out ++ [' '] ++ arg) first := rfl

/-- `render(ftbl, pps)` in a process with the command line `cmd` and the id `pid`. -/
def render (cmd : List Char) (pid : U32) (ftbl : FrameTable) (pps : List ProgramPoint) :
    List Char :=
  let out := ['{']
  let out := writeKey out "dhatFileVersion".toList
  let out := out ++ "2,".toList
  let out := writeKey out "mode".toList
  let out := writeJsonString out "rust-heap".toList
  let out := out ++ [',']
  let out := writeKey out "verb".toList
  let out := writeJsonString out "Allocated".toList
  let out := out ++ [',']
  let out := writeKey out "bklt".toList
  let out := out ++ "false,".toList
  let out := writeKey out "bkacc".toList
  let out := out ++ "false,".toList
  let out := writeKey out "bu".toList
  let out := writeJsonString out "byte".toList
  let out := out ++ [',']
  let out := writeKey out "bsu".toList
  let out := writeJsonString out "bytes".toList
  let out := out ++ [',']
  let out := writeKey out "bksu".toList
  let out := writeJsonString out "blocks".toList
  let out := out ++ [',']
  let out := writeKey out "tu".toList
  let out := writeJsonString out "instrs".toList
  let out := out ++ [',']
  let out := writeKey out "Mtu".toList
  let out := writeJsonString out "Minstr".toList
  let out := out ++ [',']
  let out := writeKey out "tuth".toList
  let out := out ++ "0,".toList
  let out := writeKey out "cmd".toList
  let out := writeJsonString out cmd
  let out := out ++ [',']
  let out := writeKey out "pid".toList
  let out := writeNumber out pid.toNat
  let out := out ++ [',']
  let out := writeKey out "tg".toList
  let out := out ++ "0,".toList
  let out := writeKey out "te".toList
  let out := out ++ "0,".toList
  let out := writeKey out "pps".toList
  let out := out ++ ['[']
  let out := writeItems writePp out pps
  let out := out ++ [']']
  let out := out ++ [',']
  let out := writeKey out "ftbl".toList
  let out := out ++ ['[']
  let out := writeItems writeJsonString out ftbl.entries
  let out := out ++ [']']
  out ++ ['}']

/-- `dhat_json_string()`, with the report that `build` drains. -/
def dhatJsonString (args : List (List Char)) (pid : U32) (report : Report) : List Char :=
  let (ftbl, pps) := build report
  render (currentCmd args) pid ftbl pps

/-! ## What is appended -/

theorem writeItems_append {α : Type} {write : List Char → α → List Char} {text : α → List Char}
    (appends : ∀ out x, write out x = out ++ text x) (out : List Char) (xs : List α) :
    writeItems write out xs = out ++ commas text xs := by
  -- behind the first item, a comma comes before each
  have rest : ∀ (xs : List α) (x : α) (i : Nat) (out : List Char), 0 < i →
      (xs.zipIdx i).foldl (fun out (x, i) =>
        let out := if i > 0 then out ++ [','] else out
        write out x) (out ++ text x) = out ++ commas text (x :: xs) := by
    intro xs
    induction xs with
    | nil => intro x i out _; rw [commas_singleton]; rfl
    | cons y ys ih =>
        intro x i out pos
        have next := ih y (i + 1) (out ++ text x ++ [',']) (Nat.succ_pos i)
        rw [List.zipIdx_cons, List.foldl_cons, commas_cons_cons]
        simp only [gt_iff_lt, if_pos pos, appends] at next ⊢
        rw [next]
        simp only [List.append_assoc, List.singleton_append]
  cases xs with
  | nil => rw [commas_nil, List.append_nil]; rfl
  | cons x xs =>
      have written := rest xs x 1 out Nat.one_pos
      rw [writeItems, List.zipIdx_cons, List.foldl_cons]
      simp only [gt_iff_lt, Nat.lt_irrefl, if_false, appends] at written ⊢
      exact written

/-- A member with the text of its value. -/
structure Field where
  key : List Char
  text : List Char
  value : Value

namespace Field

def number (key : String) (n : Nat) : Field := ⟨key.toList, Nat.toDigits 10 n, .number n 0⟩

def string (key : String) (s : List Char) : Field := ⟨key.toList, jsonString s, .string s⟩

def false (key : String) : Field := ⟨key.toList, "false".toList, .bool Bool.false⟩

def array {α : Type} (key : String) (text : α → List Char) (said : α → Value) (xs : List α) :
    Field :=
  ⟨key.toList, '[' :: (commas text xs ++ [']']), .array (xs.map said)⟩

def write (f : Field) : List Char := jsonString f.key ++ ':' :: f.text

def member (f : Field) : List Char × Value := (f.key, f.value)

end Field

/-- The text of an object. -/
def objectText (fields : List Field) : List Char := '{' :: (commas Field.write fields ++ ['}'])

def objectValue (fields : List Field) : Value := .object (fields.map Field.member)

def ppFields (pp : ProgramPoint) : List Field :=
  [.number "tb" pp.totalBytes.toNat, .number "tbk" pp.count.toNat, .number "eb" 0,
    .number "ebk" 0,
    .array "fs" (fun idx => Nat.toDigits 10 idx.toNat) (fun idx => .number idx.toNat 0)
      pp.frameIndices]

def fields (cmd : List Char) (pid : U32) (ftbl : FrameTable) (pps : List ProgramPoint) :
    List Field :=
  [.number "dhatFileVersion" 2, .string "mode" "rust-heap".toList,
    .string "verb" "Allocated".toList, .false "bklt", .false "bkacc", .string "bu" "byte".toList,
    .string "bsu" "bytes".toList, .string "bksu" "blocks".toList, .string "tu" "instrs".toList,
    .string "Mtu" "Minstr".toList, .number "tuth" 0, .string "cmd" cmd, .number "pid" pid.toNat,
    .number "tg" 0, .number "te" 0,
    .array "pps" (fun pp => objectText (ppFields pp)) (fun pp => objectValue (ppFields pp)) pps,
    .array "ftbl" jsonString .string ftbl.entries]

/-- The members of a DHAT document of either mode. -/
def documentFields (mode verb unit units blocks cmd : List Char) (pid : U32)
    (pps : List ProgramPoint) (entries : List (List Char)) : List Field :=
  [.number "dhatFileVersion" 2, .string "mode" mode, .string "verb" verb, .false "bklt",
    .false "bkacc", .string "bu" unit, .string "bsu" units, .string "bksu" blocks,
    .string "tu" "instrs".toList, .string "Mtu" "Minstr".toList, .number "tuth" 0,
    .string "cmd" cmd, .number "pid" pid.toNat, .number "tg" 0, .number "te" 0,
    .array "pps" (fun pp => objectText (ppFields pp)) (fun pp => objectValue (ppFields pp)) pps,
    .array "ftbl" jsonString .string entries]

theorem fields_eq (cmd : List Char) (pid : U32) (ftbl : FrameTable) (pps : List ProgramPoint) :
    fields cmd pid ftbl pps = documentFields "rust-heap".toList "Allocated".toList "byte".toList
      "bytes".toList "blocks".toList cmd pid pps ftbl.entries := rfl

theorem writePp_append (out : List Char) (pp : ProgramPoint) :
    writePp out pp = out ++ objectText (ppFields pp) := by
  have zero : "0,".toList = Nat.toDigits 10 0 ++ [','] := by decide
  have items : ∀ (out : List Char) (xs : List U32),
      writeItems (fun out idx => writeNumber out idx.toNat) out xs =
        out ++ commas (fun idx : U32 => Nat.toDigits 10 idx.toNat) xs :=
    writeItems_append fun _ _ => rfl
  simp only [writePp, items, writeKey_append, zero]
  simp only [objectText, ppFields, Field.number, Field.array, commas_cons_cons, commas_singleton, Field.write]
  simp only [writeNumber, List.append_assoc, List.cons_append, List.nil_append]


/-- **The document is its members, with commas between them.** -/
theorem render_eq (cmd : List Char) (pid : U32) (ftbl : FrameTable) (pps : List ProgramPoint) :
    render cmd pid ftbl pps = objectText (fields cmd pid ftbl pps) := by
  have zero : "0,".toList = Nat.toDigits 10 0 ++ [','] := by decide
  have two : "2,".toList = Nat.toDigits 10 2 ++ [','] := by decide
  have false : "false,".toList = "false".toList ++ [','] := by decide
  simp only [render, writeItems_append writePp_append, writeItems_append writeJsonString_append,
    writeKey_append, writeJsonString_append, writeNumber, zero, two, false]
  simp only [objectText, fields, Field.number, Field.string, Field.false, Field.array,
    commas_cons_cons, commas_singleton, Field.write]
  simp only [List.append_assoc, List.cons_append, List.nil_append]

/-! ## What the document says -/

namespace Field

variable {Inner : Value → List Char → Prop}

theorem number_text (key : String) (n : Nat) :
    Shape Inner (number key n).value (number key n).text := Json.number_text n

theorem string_text (key : String) (s : List Char) :
    Shape Inner (string key s).value (string key s).text := .string (quoted_jsonString s)

theorem false_text (key : String) : Shape Inner (false key).value (false key).text := by
  have text : "false".toList = ['f', 'a', 'l', 's', 'e'] := by decide
  rw [Field.false, text]
  exact .false

theorem array_text {α : Type} (key : String) {text : α → List Char} {said : α → Value}
    {xs : List α} (items : ∀ x ∈ xs, Inner (said x) (text x)) :
    Shape Inner (array key text said xs).value (array key text said xs).text :=
  .array (bracketed_commas items)

end Field

/-- An object says its members if their texts say their values. -/
theorem objectText_text {Inner : Value → List Char → Prop} {fields : List Field}
    (texts : ∀ f ∈ fields, Inner f.value f.text) :
    Shape Inner (objectValue fields) (objectText fields) := by
  refine .object (bracketed_commas fun f inFields => ?_)
  have isMember := Member.mk (quoted_jsonString f.key) Space.nil Space.nil (texts f inFields)
  rwa [List.nil_append, List.nil_append] at isMember

theorem ppFields_text (pp : ProgramPoint) : ∀ f ∈ ppFields pp, Text 2 f.value f.text := by
  have indices : ∀ idx ∈ pp.frameIndices, Text 1 (.number idx.toNat 0) (Nat.toDigits 10 idx.toNat) :=
    fun idx _ => Json.number_text idx.toNat
  simp only [ppFields, List.forall_mem_cons]
  exact ⟨Field.number_text _ _, Field.number_text _ _, Field.number_text _ _, Field.number_text _ _,
    Field.array_text _ indices, List.forall_mem_nil _⟩

theorem documentFields_text (mode verb unit units blocks cmd : List Char) (pid : U32)
    (pps : List ProgramPoint) (entries : List (List Char)) :
    ∀ f ∈ documentFields mode verb unit units blocks cmd pid pps entries, Text 4 f.value f.text := by
  have points : ∀ pp ∈ pps, Text 3 (objectValue (ppFields pp)) (objectText (ppFields pp)) :=
    fun pp _ => objectText_text (ppFields_text pp)
  have strings : ∀ entry ∈ entries, Text 3 (.string entry) (jsonString entry) :=
    fun entry _ => .string (quoted_jsonString entry)
  simp only [documentFields, List.forall_mem_cons]
  exact ⟨Field.number_text _ _, Field.string_text _ _, Field.string_text _ _, Field.false_text _,
    Field.false_text _, Field.string_text _ _, Field.string_text _ _, Field.string_text _ _,
    Field.string_text _ _, Field.string_text _ _, Field.number_text _ _, Field.string_text _ _,
    Field.number_text _ _, Field.number_text _ _, Field.number_text _ _,
    Field.array_text _ points, Field.array_text _ strings, List.forall_mem_nil _⟩

theorem objectValue_distinct {fields : List Field} (keys : (fields.map Field.key).Nodup)
    (values : ∀ f ∈ fields, f.value.DistinctKeys) : (objectValue fields).DistinctKeys := by
  refine .object ?_ ?_
  · rwa [List.map_map]
  · intro m inMembers
    obtain ⟨f, inFields, rfl⟩ := List.mem_map.mp inMembers
    exact values f inFields

theorem array_distinct {α : Type} {said : α → Value} {xs : List α}
    (items : ∀ x ∈ xs, (said x).DistinctKeys) : (Value.array (xs.map said)).DistinctKeys := by
  refine .array fun v inMap => ?_
  obtain ⟨x, inItems, rfl⟩ := List.mem_map.mp inMap
  exact items x inItems

theorem ppFields_distinct (pp : ProgramPoint) : (objectValue (ppFields pp)).DistinctKeys := by
  refine objectValue_distinct ?_ ?_
  · show ["tb".toList, "tbk".toList, "eb".toList, "ebk".toList, "fs".toList].Nodup
    decide
  · simp only [ppFields, List.forall_mem_cons]
    exact ⟨.number _ _, .number _ _, .number _ _, .number _ _,
      array_distinct fun _ _ => .number _ _, List.forall_mem_nil _⟩

theorem documentFields_distinct (mode verb unit units blocks cmd : List Char) (pid : U32)
    (pps : List ProgramPoint) (entries : List (List Char)) :
    (objectValue (documentFields mode verb unit units blocks cmd pid pps entries)).DistinctKeys := by
  refine objectValue_distinct ?_ ?_
  · show ["dhatFileVersion".toList, "mode".toList, "verb".toList, "bklt".toList, "bkacc".toList,
      "bu".toList, "bsu".toList, "bksu".toList, "tu".toList, "Mtu".toList, "tuth".toList,
      "cmd".toList, "pid".toList, "tg".toList, "te".toList, "pps".toList, "ftbl".toList].Nodup
    decide
  · simp only [documentFields, List.forall_mem_cons]
    exact ⟨.number _ _, .string _, .string _, .bool _, .bool _, .string _, .string _, .string _,
      .string _, .string _, .number _ _, .string _, .number _ _, .number _ _, .number _ _,
      array_distinct fun pp _ => ppFields_distinct pp, array_distinct fun _ _ => .string _,
      List.forall_mem_nil _⟩

/-- An object is parsed in full. -/
theorem parse_objectText {n : Nat} {fields : List Field}
    (texts : ∀ f ∈ fields, Text n f.value f.text) :
    parse (objectText fields) = some (objectValue fields) := by
  have text : Text (n + 1) (objectValue fields) (objectText fields) := objectText_text texts
  exact parse_eq_some.mpr ⟨n + 1, Padded.of_item text⟩

theorem lookup_member {fields : List Field} (distinct : (objectValue fields).DistinctKeys) :
    ∀ f ∈ fields, (fields.map Field.member).lookup f.key = some f.value :=
  fun _ inFields => distinct.lookup (List.mem_map_of_mem inFields)

theorem parse_render (cmd : List Char) (pid : U32) (ftbl : FrameTable) (pps : List ProgramPoint) :
    parse (render cmd pid ftbl pps) = some (objectValue (fields cmd pid ftbl pps)) := by
  rw [render_eq, fields_eq]
  exact parse_objectText (documentFields_text _ _ _ _ _ _ _ _ _)

theorem fields_distinct (cmd : List Char) (pid : U32) (ftbl : FrameTable)
    (pps : List ProgramPoint) : (objectValue (fields cmd pid ftbl pps)).DistinctKeys := by
  rw [fields_eq]
  exact documentFields_distinct _ _ _ _ _ _ _ _ _

/-- **The document decodes back to what was rendered.** -/
theorem render_decodes (cmd : List Char) (pid : U32) (ftbl : FrameTable)
    (pps : List ProgramPoint) :
    ∃ members, parse (render cmd pid ftbl pps) = some (.object members) ∧
      (Value.object members).DistinctKeys ∧
      members.lookup "pps".toList = some (.array (pps.map fun pp => .object
        [("tb".toList, .number pp.totalBytes.toNat 0), ("tbk".toList, .number pp.count.toNat 0),
          ("eb".toList, .number 0 0), ("ebk".toList, .number 0 0),
          ("fs".toList, .array (pp.frameIndices.map fun idx => .number idx.toNat 0))])) ∧
      members.lookup "ftbl".toList = some (.array (ftbl.entries.map .string)) ∧
      members.lookup "cmd".toList = some (.string cmd) ∧
      members.lookup "pid".toList = some (.number pid.toNat 0) := by
  have distinct := fields_distinct cmd pid ftbl pps
  have found := lookup_member distinct
  simp only [fields, List.forall_mem_cons] at found
  obtain ⟨_, _, _, _, _, _, _, _, _, _, _, isCmd, isPid, _, _, isPps, isFtbl, _⟩ := found
  exact ⟨_, parse_render cmd pid ftbl pps, distinct, isPps, isFtbl, isCmd, isPid⟩

/-! ## Reading a document back -/

/-- What a document has for a call site. -/
structure Site where
  totalBytes : Int
  count : Int
  frames : List (List Char)
deriving DecidableEq

def readFrame (ftbl : List Value) (idx : Value) : Option (List Char) :=
  match idx with
  | .number i 0 =>
      match ftbl[i.toNat]? with
      | some (.string frame) => some frame
      | _ => none
  | _ => none

def readSite (ftbl : List Value) (pp : Value) : Option Site :=
  match pp with
  | .object members =>
      match members.lookup "tb".toList, members.lookup "tbk".toList, members.lookup "fs".toList with
      | some (.number totalBytes 0), some (.number count 0), some (.array fs) =>
          (fs.mapM (readFrame ftbl)).map fun frames => ⟨totalBytes, count, frames⟩
      | _, _, _ => none
  | _ => none

/-- The call sites that a document lists, their frames looked up in its frame table. -/
def readSites (text : List Char) : Option (List Site) :=
  match parse text with
  | some (.object members) =>
      match members.lookup "pps".toList, members.lookup "ftbl".toList with
      | some (.array pps), some (.array ftbl) => pps.mapM (readSite ftbl)
      | _, _ => none
  | _ => none

def Row.site (row : Row) : Site := ⟨row.totalBytes.toNat, row.count.toNat, row.strings⟩

/-- Every item is read as what it was written for. -/
theorem mapM_map_eq {α β γ : Type} {read : β → Option γ} {write : α → β} {value : α → γ}
    {xs : List α} (items : ∀ x ∈ xs, read (write x) = some (value x)) :
    (xs.map write).mapM read = some (xs.map value) := by
  induction xs with
  | nil => rfl
  | cons x xs ih =>
      obtain ⟨first, rest⟩ := List.forall_mem_cons.mp items
      rw [List.map_cons, List.mapM_cons, first, ih rest]
      rfl

theorem readSite_point {strings : List (List Char)} (few : strings.eraseDups.length < 2 ^ 32 - 1)
    {row : Row} (inTable : ∀ s ∈ row.strings, s ∈ strings) :
    readSite ((FrameTable.ofStrings strings).entries.map .string)
      (objectValue (ppFields (point strings row))) = some row.site := by
  have frames : ((point strings row).frameIndices.map fun idx => Value.number idx.toNat 0).mapM
      (readFrame ((FrameTable.ofStrings strings).entries.map .string)) =
        some (row.strings.map id) := by
    rw [point, List.map_map]
    refine mapM_map_eq fun s inRow => ?_
    have entry := getElem?_index few (inTable s inRow)
    rw [Function.comp_apply, readFrame, List.getElem?_map, Int.toNat_natCast, entry]
    rfl
  have found := lookup_member (ppFields_distinct (point strings row))
  simp only [ppFields, List.forall_mem_cons] at found
  obtain ⟨isTb, isTbk, _, _, isFs, _⟩ := found
  simp only [Field.number, Field.array] at isTb isTbk isFs
  rw [objectValue, readSite]
  simp only [ppFields, Field.number, Field.array, isTb, isTbk, isFs, frames, List.map_id, Option.map_some]
  rfl

theorem readSites_render (cmd : List Char) (pid : U32) (ftbl : FrameTable)
    (pps : List ProgramPoint) :
    readSites (render cmd pid ftbl pps) =
      (pps.map fun pp => objectValue (ppFields pp)).mapM (readSite (ftbl.entries.map .string)) := by
  have found := lookup_member (fields_distinct cmd pid ftbl pps)
  have isPps := found (.array "pps" (fun pp => objectText (ppFields pp))
    (fun pp => objectValue (ppFields pp)) pps) (by simp only [fields, List.mem_cons, true_or, or_true])
  have isFtbl := found (.array "ftbl" jsonString .string ftbl.entries)
    (by simp only [fields, List.mem_cons, true_or, or_true])
  simp only [Field.array] at isPps isFtbl
  rw [readSites, parse_render, objectValue]
  simp only [isPps, isFtbl]

/-- **A document lists the call sites of its report**, frame by frame, as long as the
indices fit into a `u32`. -/
theorem readSites_dhatJsonString (args : List (List Char)) (pid : U32) {report : Report}
    (few : report.strings.eraseDups.length < 2 ^ 32 - 1) :
    readSites (dhatJsonString args pid report) = some (report.rows.map Row.site) := by
  rw [dhatJsonString, build_eq, readSites_render, List.map_map]
  refine mapM_map_eq fun row inRows => readSite_point few fun s inRow => ?_
  exact List.mem_flatMap.mpr ⟨row, inRows, inRow⟩

end DhatJson

end ModAlloc
