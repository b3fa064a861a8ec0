import ModAlloc.Lib.Json.Parser

/-!
# String literals

A string literal ends at its first quotation mark that is not escaped, whatever stands
behind it, so that no literal begins another (`Quoted.unique`). Inside there is no
control character, and each quotation mark stands behind a backslash that is not
escaped itself (`Quoted.quote_escaped`).
-/

namespace Json

/-- Whether the next character is escaped, behind `c`. -/
def escapeStep (escaped : Bool) (c : Char) : Bool := !escaped && c == '\\'

/-- Whether the character behind a text is escaped: the text ends in a backslash that
is not escaped itself. -/
def escapes (s : List Char) : Bool := s.foldl escapeStep false

theorem exists_backslash {s : List Char} (escaped : escapes s = true) :
    ∃ t, s = t ++ ['\\'] ∧ escapes t = false := by
  rcases List.eq_nil_or_concat' s with rfl | ⟨t, c, rfl⟩
  · cases escaped
  · rw [escapes, List.foldl_concat, ← escapes, escapeStep, Bool.and_eq_true, Bool.not_eq_true',
      beq_iff_eq] at escaped
    obtain ⟨unescaped, rfl⟩ := escaped
    exact ⟨t, rfl, unescaped⟩

/-- Every quotation mark is escaped, the first character being escaped or not. -/
def QuotesEscaped : Bool → List Char → Prop
  | _, [] => True
  | escaped, c :: s => (c = '"' → escaped = true) ∧ QuotesEscaped (escapeStep escaped c) s

theorem QuotesEscaped.append {escaped : Bool} {s t : List Char} (first : QuotesEscaped escaped s)
    (rest : QuotesEscaped (s.foldl escapeStep escaped) t) : QuotesEscaped escaped (s ++ t) := by
  induction s generalizing escaped with
  | nil => exact rest
  | cons c s ih => exact ⟨first.1, ih first.2 rest⟩

theorem QuotesEscaped.before {escaped : Bool} {s t : List Char}
    (quotes : QuotesEscaped escaped (s ++ '"' :: t)) : s.foldl escapeStep escaped = true := by
  induction s generalizing escaped with
  | nil => exact quotes.1 rfl
  | cons c s ih => exact ih quotes.2

/-! ## What stands inside a literal -/

structure Inside (s : List Char) : Prop where
  large : ∀ c ∈ s, 0x20 ≤ c.toNat
  quotes : QuotesEscaped false s
  ends : escapes s = false

theorem Inside.nil : Inside [] := ⟨fun _ inNil => absurd inNil List.not_mem_nil, trivial, rfl⟩

theorem Inside.append {s t : List Char} (first : Inside s) (rest : Inside t) : Inside (s ++ t) where
  large c inBoth := (List.mem_append.mp inBoth).elim (first.large c) (rest.large c)
  quotes := by
    refine first.quotes.append ?_
    rw [← escapes, first.ends]
    exact rest.quotes
  ends := by
    rw [escapes, List.foldl_append, ← escapes, first.ends]
    exact rest.ends

theorem Inside.unescaped {c : Char} (large : 0x20 ≤ c.toNat) (quote : c ≠ '"')
    (backslash : c ≠ '\\') : Inside [c] where
  large d inList := by rwa [List.mem_singleton.mp inList]
  quotes := ⟨fun isQuote => absurd isQuote quote, trivial⟩
  ends := by
    show (true && c == '\\') = false
    rw [Bool.true_and, beq_eq_false_iff_ne]
    exact backslash

theorem Inside.escape {e : Char} (large : 0x20 ≤ e.toNat) : Inside ['\\', e] where
  large d inList := by
    rcases List.mem_pair.mp inList with rfl | rfl
    · decide
    · exact large
  quotes := ⟨fun isQuote => absurd isQuote (by decide), fun _ => rfl, trivial⟩
  ends := rfl

theorem Inside.hexDigit {c : Char} {n : Nat} (hex : hexDigit c = some n) : Inside [c] := by
  have other : ∀ d, Json.hexDigit d = none → c ≠ d := by
    intro d none same
    rw [same, none] at hex
    cases hex
  refine .unescaped ?_ (other '"' (by decide)) (other '\\' (by decide))
  unfold Json.hexDigit at hex
  split at hex
  case isTrue digit => exact le_trans (by decide) (show '0'.toNat ≤ c.toNat from digit.1)
  case isFalse =>
    split at hex
    case isTrue lower => exact le_trans (by decide) (show 'a'.toNat ≤ c.toNat from lower.1)
    case isFalse =>
      split at hex
      case isTrue upper => exact le_trans (by decide) (show 'A'.toNat ≤ c.toNat from upper.1)
      case isFalse => cases hex

theorem Inside.hexQuad {quad : List Char} {n : Nat} (hex : hexQuad quad = some n) : Inside quad := by
  unfold Json.hexQuad at hex
  split at hex
  case h_1 a b c d =>
      simp only [Option.bind_eq_bind, Option.bind_eq_some_iff] at hex
      obtain ⟨_, isHex, _, isHex', _, isHex'', _, isHex''', _⟩ := hex
      exact (((Inside.hexDigit isHex).append (.hexDigit isHex')).append
        (.hexDigit isHex'')).append (.hexDigit isHex''')
  case h_2 => cases hex

/-- `\\u` and four hexadecimal digits. -/
theorem Inside.unicode {quad : List Char} {n : Nat} (hex : Json.hexQuad quad = some n) :
    Inside ('\\' :: 'u' :: quad) :=
  (Inside.escape (e := 'u') (by decide)).append (.hexQuad hex)

theorem Element.inside {c : Char} {s : List Char} (element : Element c s) : Inside s := by
  cases element with
  | unescaped large quote backslash => exact .unescaped large quote backslash
  | @escape e _ isEscape =>
      refine .escape ?_
      unfold escaped at isEscape
      split at isEscape
      case h_9 => cases isEscape
      all_goals decide
  | unicode hex _ => exact .unicode hex
  | surrogates hex _ hex' _ => exact (Inside.unicode hex).append (.unicode hex')

theorem Chars.inside {cs s : List Char} (chars : Chars cs s) : Inside s := by
  induction chars with
  | nil => exact .nil
  | cons element _ ih => exact element.inside.append ih

/-! ## Literals -/

variable {cs cs' literal literal' rest rest' : List Char}

/-- **A literal ends where it ends**, whatever follows. -/
theorem Quoted.unique (text : Quoted cs literal) (text' : Quoted cs' literal')
    (same : literal ++ rest = literal' ++ rest') : cs = cs' ∧ literal = literal' ∧ rest = rest' := by
  have read := reads_quoted.complete (r := rest) text trivial
  have read' := reads_quoted.complete (r := rest') text' trivial
  rw [same, read', Option.some.injEq, Prod.mk.injEq] at read
  obtain ⟨rfl, rfl⟩ := read
  exact ⟨rfl, List.append_cancel_right same, rfl⟩

theorem Quoted.large (text : Quoted cs literal) : ∀ c ∈ literal, 0x20 ≤ c.toNat := by
  cases text with
  | mk chars =>
      intro c inLiteral
      rcases List.mem_cons.mp inLiteral with rfl | inRest
      · decide
      rcases List.mem_append.mp inRest with inside | last
      · exact chars.inside.large c inside
      · rw [List.mem_singleton.mp last]
        decide

/-- **A quotation mark inside stands behind its escaping backslash.** -/
theorem Quoted.quote_escaped (text : Quoted cs literal) {before after : List Char}
    (split : literal = before ++ '"' :: after) (first : before ≠ []) (last : after ≠ []) :
    ∃ b, before = b ++ ['\\'] ∧ escapes b = false := by
  obtain ⟨c, before, rfl⟩ := List.exists_cons_of_ne_nil first
  obtain ⟨after, d, rfl⟩ := (List.eq_nil_or_concat' after).resolve_left last
  cases text with
  | @mk s chars =>
      rw [List.cons_append, List.cons.injEq, ← List.cons_append, ← List.append_assoc] at split
      obtain ⟨rfl, split⟩ := split
      obtain ⟨rfl, _⟩ := List.append_inj' split rfl
      obtain ⟨b, rfl, unescaped⟩ := exists_backslash chars.inside.quotes.before
      exact ⟨'"' :: b, rfl, unescaped⟩

end Json
