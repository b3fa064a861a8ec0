import ModAlloc.Basic
import ModAlloc.Lib.Json.Literal

/-!
# The JSON writer

The writer appends to the text written so far. Whatever that is, a string is appended
as a JSON string literal that says it (`writeJsonString_append`, `quoted_jsonString`),
and whatever is appended later, the string is read back (`writeJsonString_literal`).
-/

namespace ModAlloc

namespace DhatJson

open Json

/-- `{:04x}` and `{:x}`: hexadecimal digits, with zeros in front up to a width. -/
def lowerHex (width n : Nat) : List Char := (Nat.toDigits 16 n).leftpad width '0'

/-- The body of the loop of `write_json_string`. -/
def writeJsonChar (out : List Char) (ch : Char) : List Char :=
  match ch with
  | '"' => out ++ ['\\', '"']
  | '\\' => out ++ ['\\', '\\']
  | '\n' => out ++ ['\\', 'n']
  | '\r' => out ++ ['\\', 'r']
  | '\t' => out ++ ['\\', 't']
  | c => if c.toNat < 0x20 then out ++ '\\' :: 'u' :: lowerHex 4 c.toNat else out ++ [c]

/-- Append `s` to `out` as a JSON string literal. -/
def writeJsonString (out s : List Char) : List Char :=
  s.foldl writeJsonChar (out ++ ['"']) ++ ['"']

/-- Append a `"key":` token. -/
def writeKey (out key : List Char) : List Char := writeJsonString out key ++ [':']

/-! ## What the writer appends -/

/-- The literal of a string. -/
def jsonString (s : List Char) : List Char := '"' :: (s.flatMap (writeJsonChar []) ++ ['"'])

theorem writeJsonChar_append (out : List Char) (ch : Char) :
    writeJsonChar out ch = out ++ writeJsonChar [] ch := by
  unfold writeJsonChar
  split <;> try rfl
  split <;> rfl

theorem foldl_writeJsonChar (out s : List Char) :
    s.foldl writeJsonChar out = out ++ s.flatMap (writeJsonChar []) := by
  induction s generalizing out with
  | nil => rw [List.foldl_nil, List.flatMap_nil, List.append_nil]
  | cons ch s ih =>
      rw [List.foldl_cons, ih, writeJsonChar_append, List.flatMap_cons, List.append_assoc]

theorem writeJsonString_append (out s : List Char) :
    writeJsonString out s = out ++ jsonString s := by
  simp only [writeJsonString, jsonString, foldl_writeJsonChar, List.append_assoc, List.cons_append,
    List.nil_append]

theorem writeKey_append (out key : List Char) :
    writeKey out key = out ++ (jsonString key ++ [':']) := by
  rw [writeKey, writeJsonString_append, List.append_assoc]

/-! ## What it says -/

theorem hexQuad_lowerHex {n : Nat} (control : n < 0x20) : hexQuad (lowerHex 4 n) = some n := by
  interval_cases n <;> decide

/-- Each character is written as one that says it. -/
theorem element_writeJsonChar (ch : Char) : Element ch (writeJsonChar [] ch) := by
  unfold writeJsonChar
  split
  case h_6 ch quote backslash newline ret tab =>
      split
      case isTrue control =>
          have element := Element.unicode (hexQuad_lowerHex control) (.inl (by omega))
          rwa [Char.ofNat_toNat] at element
      case isFalse large => exact .unescaped (Nat.le_of_not_lt large) quote backslash
  all_goals exact .escape (by decide)

/-- **The literal of a string says the string.** -/
theorem quoted_jsonString (s : List Char) : Quoted s (jsonString s) := by
  refine .mk ?_
  induction s with
  | nil => exact .nil
  | cons ch s ih => exact .cons (element_writeJsonChar ch) ih

/-- **The literal appended delimits itself**: it is read back, whatever follows, and in no
other way. No control character stands in it, and no quotation mark between the first
and the last but behind a backslash that escapes it. -/
theorem writeJsonString_literal (out s : List Char) :
    ∃ literal, writeJsonString out s = out ++ literal ∧ Quoted s literal ∧
      (∀ t, quoted (literal ++ t) = some (s, t)) ∧
      (∀ t cs other rest, Quoted cs other → literal ++ t = other ++ rest → cs = s ∧ rest = t) ∧
      (∀ c ∈ literal, 0x20 ≤ c.toNat) ∧
      ∀ before after, literal = before ++ '"' :: after → before ≠ [] → after ≠ [] →
        ∃ b, before = b ++ ['\\'] ∧ escapes b = false := by
  have text := quoted_jsonString s
  refine ⟨jsonString s, writeJsonString_append out s, text, ?_, ?_, text.large, ?_⟩
  · intro t
    exact reads_quoted.complete text trivial
  · intro t cs other rest text' same
    obtain ⟨rfl, _, rfl⟩ := text.unique text' same
    exact ⟨rfl, rfl⟩
  · intro before after split first last
    exact text.quote_escaped split first last

end DhatJson

end ModAlloc
