import ModAlloc.DhatJson.Render

/-!
# The ad-hoc JSON document

The writer of the ad-hoc mode shares no code with that of the heap mode: keys and
constant values are pushed as they stand, and the command line is escaped while its
arguments are joined. It is the literal that the other writer has for it all the same
(`pushCmd_eq`), and the document is one JSON object that says the statistics
(`adHoc_decodes`).
-/

namespace ModAlloc

namespace DhatCompat

open DhatJson Json

structure AdHocStats where
  totalEvents : U64
  totalUnits : U64
deriving DecidableEq

def pushU64 (out : List Char) (n : U64) : List Char := out ++ Nat.toDigits 10 n.toNat

/-- The body of the loop over the characters of an argument. -/
def pushChar (out : List Char) (ch : Char) : List Char :=
  match ch with
  | '"' => out ++ "\\\"".toList
  | '\\' => out ++ "\\\\".toList
  | '\n' => out ++ "\\n".toList
  | '\r' => out ++ "\\r".toList
  | '\t' => out ++ "\\t".toList
  | c => if c.toNat < 0x20 then out ++ '\\' :: 'u' :: lowerHex 4 c.toNat else out ++ [c]

/-- The body of the loop over the arguments. -/
def pushArg (acc : List Char × Bool) (arg : List Char) : List Char × Bool :=
  let (out, first) := acc
  let out := if !first then out ++ [' '] else out
  (arg.foldl pushChar out, false)

/-- `push_cmd` for the arguments of the process, as `to_string_lossy` shows them. -/
def pushCmd (out : List Char) (args : List (List Char)) : List Char :=
  let out := out ++ ['"']
  let (out, first) := args.foldl pushArg (out, true)
  let out := if first then out ++ "<unknown>".toList else out
  out ++ ['"']

/-- `render(stats)` in a process with the arguments `args` and the id `pid`. -/
def render (args : List (List Char)) (pid : U32) (stats : AdHocStats) : List Char :=
  let out := ['{']
  let out := out ++ "\"dhatFileVersion\":2,".toList
  let out := out ++ "\"mode\":\"ad-hoc\",".toList
  let out := out ++ "\"verb\":\"Occurred\",".toList
  let out := out ++ "\"bklt\":false,".toList
  let out := out ++ "\"bkacc\":false,".toList
  let out := out ++ "\"bu\":\"unit\",".toList
  let out := out ++ "\"bsu\":\"units\",".toList
  let out := out ++ "\"bksu\":\"events\",".toList
  let out := out ++ "\"tu\":\"instrs\",".toList
  let out := out ++ "\"Mtu\":\"Minstr\",".toList
  let out := out ++ "\"tuth\":0,".toList
  let out := out ++ "\"cmd\":".toList
  let out := pushCmd out args
  let out := out ++ [',']
  let out := out ++ "\"pid\":".toList
  let out := pushU64 out (pid.setWidth 64)
  let out := out ++ [',']
  let out := out ++ "\"tg\":0,".toList
  let out := out ++ "\"te\":0,".toList
  let out := out ++ "\"pps\":[\x7b".toList
  let out := out ++ "\"tb\":".toList
  let out := pushU64 out stats.totalUnits
  let out := out ++ [',']
  let out := out ++ "\"tbk\":".toList
  let out := pushU64 out stats.totalEvents
  let out := out ++ [',']
  let out := out ++ "\"eb\":0,\"ebk\":0,".toList
  let out := out ++ "\"fs\":[]".toList
  let out := out ++ "\x7d],".toList
  let out := out ++ "\"ftbl\":[\"[root]\"]".toList
  out ++ ['}']

/-! ## The command line -/

theorem pushChar_eq (out : List Char) (ch : Char) : pushChar out ch = writeJsonChar out ch := by
  have quote : "\\\"".toList = ['\\', '"'] := by decide
  have backslash : "\\\\".toList = ['\\', '\\'] := by decide
  have newline : "\\n".toList = ['\\', 'n'] := by decide
  have ret : "\\r".toList = ['\\', 'r'] := by decide
  have tab : "\\t".toList = ['\\', 't'] := by decide
  simp only [pushChar, quote, backslash, newline, ret, tab]
  rfl

theorem foldl_pushChar (out arg : List Char) : arg.foldl pushChar out = arg.foldl writeJsonChar out := by
  rw [funext₂ pushChar_eq]

/-- Behind the first argument, a space comes before each. -/
theorem foldl_pushArg (parts : List (List Char)) (out first : List Char) :
    parts.foldl pushArg (first.foldl writeJsonChar out, false) =
      ((parts.foldl (fun cmd arg => cmd ++ [' '] ++ arg) first).foldl writeJsonChar out, false) := by
  induction parts generalizing first with
  | nil => rfl
  | cons arg parts ih =>
      have space : ∀ out, writeJsonChar out ' ' = out ++ [' '] := fun _ => rfl
      have pushed : pushArg (first.foldl writeJsonChar out, false) arg =
          ((first ++ [' '] ++ arg).foldl writeJsonChar out, false) := by
        rw [pushArg, Bool.not_false, if_pos rfl, foldl_pushChar, List.foldl_append,
          List.foldl_append, List.foldl_cons, List.foldl_nil, space]
      rw [List.foldl_cons, List.foldl_cons, pushed, ih]

theorem pushCmd_of_foldl {out out' : List Char} {args : List (List Char)} {first : Bool}
    (loop : args.foldl pushArg (out ++ ['"'], true) = (out', first)) :
    pushCmd out args = (if first then out' ++ "<unknown>".toList else out') ++ ['"'] := by
  rw [pushCmd, loop]

/-- **Escaped while joined or joined and then escaped, the command line is the same.** -/
theorem pushCmd_eq (out : List Char) (args : List (List Char)) :
    pushCmd out args = writeJsonString out (currentCmd args) := by
  cases args with
  | nil =>
      have plain : "<unknown>".toList.flatMap (writeJsonChar []) = "<unknown>".toList := by decide
      rw [pushCmd_of_foldl List.foldl_nil, if_pos rfl, writeJsonString, foldl_writeJsonChar,
        currentCmd_nil, plain]
  | cons first parts =>
      have pushed : pushArg (out ++ ['"'], true) first =
          (first.foldl writeJsonChar (out ++ ['"']), false) := by
        rw [pushArg, Bool.not_true, if_neg Bool.false_ne_true, foldl_pushChar]
      have loop := foldl_pushArg parts (out ++ ['"']) first
      rw [← pushed, ← List.foldl_cons] at loop
      rw [pushCmd_of_foldl loop, if_neg Bool.false_ne_true, writeJsonString, currentCmd_cons]

/-- An empty argument still has its space behind it. -/
example : pushCmd [] [[], "a\tb".toList] = "\" a\\tb\"".toList := by decide

/-! ## The document -/

/-- The one program point. -/
def point (stats : AdHocStats) : ProgramPoint := ⟨stats.totalUnits, stats.totalEvents, []⟩

def fields (args : List (List Char)) (pid : U32) (stats : AdHocStats) : List Field :=
  documentFields "ad-hoc".toList "Occurred".toList "unit".toList "units".toList "events".toList
    (currentCmd args) pid [point stats] [root]

/-- What is pushed for a member whose value never changes. -/
def constant (f : Field) : List Char := f.write ++ [',']

/-- **The document is its members, with commas between them.** -/
theorem render_eq (args : List (List Char)) (pid : U32) (stats : AdHocStats) :
    render args pid stats = objectText (fields args pid stats) := by
  have version : "\"dhatFileVersion\":2,".toList = constant (.number "dhatFileVersion" 2) := by decide
  have mode : "\"mode\":\"ad-hoc\",".toList = constant (.string "mode" "ad-hoc".toList) := by decide
  have verb : "\"verb\":\"Occurred\",".toList = constant (.string "verb" "Occurred".toList) := by
    decide
  have bklt : "\"bklt\":false,".toList = constant (.false "bklt") := by decide
  have bkacc : "\"bkacc\":false,".toList = constant (.false "bkacc") := by decide
  have bu : "\"bu\":\"unit\",".toList = constant (.string "bu" "unit".toList) := by decide
  have bsu : "\"bsu\":\"units\",".toList = constant (.string "bsu" "units".toList) := by decide
  have bksu : "\"bksu\":\"events\",".toList = constant (.string "bksu" "events".toList) := by decide
  have tu : "\"tu\":\"instrs\",".toList = constant (.string "tu" "instrs".toList) := by decide
  have mtu : "\"Mtu\":\"Minstr\",".toList = constant (.string "Mtu" "Minstr".toList) := by decide
  have tuth : "\"tuth\":0,".toList = constant (.number "tuth" 0) := by decide
  have cmd : "\"cmd\":".toList = jsonString "cmd".toList ++ [':'] := by decide
  have isPid : "\"pid\":".toList = jsonString "pid".toList ++ [':'] := by decide
  have tg : "\"tg\":0,".toList = constant (.number "tg" 0) := by decide
  have te : "\"te\":0,".toList = constant (.number "te" 0) := by decide
  have pps : "\"pps\":[\x7b".toList = jsonString "pps".toList ++ [':', '[', '\x7b'] := by decide
  have tb : "\"tb\":".toList = jsonString "tb".toList ++ [':'] := by decide
  have tbk : "\"tbk\":".toList = jsonString "tbk".toList ++ [':'] := by decide
  have eb : "\"eb\":0,\"ebk\":0,".toList = constant (.number "eb" 0) ++ constant (.number "ebk" 0) := by
    decide
  have fs : "\"fs\":[]".toList = jsonString "fs".toList ++ [':', '[', ']'] := by decide
  have ends : "\x7d],".toList = ['\x7d', ']', ','] := by decide
  have ftbl : "\"ftbl\":[\"[root]\"]".toList =
      jsonString "ftbl".toList ++ ':' :: '[' :: (jsonString root ++ [']']) := by decide
  have wide : (pid.setWidth 64).toNat = pid.toNat := BitVec.toNat_setWidth_of_le (by decide)
  simp only [render, version, mode, verb, bklt, bkacc, bu, bsu, bksu, tu, mtu, tuth, cmd, isPid, tg,
    te, pps, tb, tbk, eb, fs, ends, ftbl, pushCmd_eq, writeJsonString_append, pushU64, wide]
  simp only [objectText, fields, documentFields, point, ppFields, Field.number, Field.string,
    Field.false, Field.array, constant, commas_nil, commas_cons_cons, commas_singleton, Field.write]
  simp only [List.append_assoc, List.cons_append, List.nil_append]

/-- **The two writers agree on the command line, and the ad-hoc document decodes back to
the statistics.** -/
theorem adHoc_decodes (args : List (List Char)) :
    (∀ out, pushCmd out args = writeJsonString out (currentCmd args)) ∧
    ∀ (pid : U32) (stats : AdHocStats),
      ∃ members, parse (render args pid stats) = some (.object members) ∧
        (Value.object members).DistinctKeys ∧
        members.lookup "cmd".toList = some (.string (currentCmd args)) ∧
        members.lookup "pps".toList = some (.array [.object
          [("tb".toList, .number stats.totalUnits.toNat 0),
            ("tbk".toList, .number stats.totalEvents.toNat 0), ("eb".toList, .number 0 0),
            ("ebk".toList, .number 0 0), ("fs".toList, .array [])]]) ∧
        members.lookup "ftbl".toList = some (.array [.string "[root]".toList]) ∧
        members.lookup "pid".toList = some (.number pid.toNat 0) := by
  refine ⟨fun out => pushCmd_eq out args, fun pid stats => ?_⟩
  have distinct : (objectValue (fields args pid stats)).DistinctKeys :=
    documentFields_distinct _ _ _ _ _ _ _ _ _
  have parsed : parse (objectText (fields args pid stats)) = some (objectValue (fields args pid stats)) :=
    parse_objectText (documentFields_text _ _ _ _ _ _ _ _ _)
  have found := lookup_member distinct
  simp only [fields, documentFields, List.forall_mem_cons] at found
  obtain ⟨_, _, _, _, _, _, _, _, _, _, _, isCmd, isPid, _, _, isPps, isFtbl, _⟩ := found
  rw [render_eq]
  exact ⟨_, parsed, distinct, isCmd, isPps, isFtbl, isPid⟩

end DhatCompat

end ModAlloc
