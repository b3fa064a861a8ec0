import Mathlib

/-!
# JSON texts

The grammar of RFC 8259, rule by rule, as relations between what a text says and the
text. A string says a list of characters, a number is `mantissa * 10 ^ exponent`, and
an object keeps its members in the order of the text, repeated keys included. Arrays
and objects nest, so `Text n` are the texts nested less than `n` deep (`Shape` is one
level of it), and `Document` is any of them with whitespace around.

Decimal numbers (`number_text`) and items with commas put between them
(`bracketed_commas`) are in the grammar.
-/

namespace Json

inductive Value where
  | null
  | bool (b : Bool)
  | number (mantissa exponent : Int)
  | string (s : List Char)
  | array (elements : List Value)
  | object (members : List (List Char × Value))

/-- No object in the value, the value included, repeats a key. -/
inductive Value.DistinctKeys : Value → Prop
  | null : DistinctKeys .null
  | bool (b : Bool) : DistinctKeys (.bool b)
  | number (mantissa exponent : Int) : DistinctKeys (.number mantissa exponent)
  | string (s : List Char) : DistinctKeys (.string s)
  | array {vs : List Value} (elements : ∀ v ∈ vs, DistinctKeys v) : DistinctKeys (.array vs)
  | object {ms : List (List Char × Value)} (keys : (ms.map Prod.fst).Nodup)
      (members : ∀ m ∈ ms, DistinctKeys m.2) : DistinctKeys (.object ms)

theorem lookup_of_nodup {members : List (List Char × Value)} (keys : (members.map Prod.fst).Nodup)
    {key : List Char} {v : Value} (isMember : (key, v) ∈ members) :
    members.lookup key = some v := by
  induction members with
  | nil => cases isMember
  | cons m members ih =>
      obtain ⟨new, keys⟩ := List.nodup_cons.mp keys
      rcases List.mem_cons.mp isMember with rfl | later
      · exact List.lookup_cons_self
      · have other : (key == m.1) = false := by
          refine beq_false_of_ne fun same => new ?_
          rw [← same]
          exact List.mem_map_of_mem later
        rw [List.lookup_cons, other]
        exact ih keys later

/-- The key of a member finds its value. -/
theorem Value.DistinctKeys.lookup {members : List (List Char × Value)}
    (distinct : (Value.object members).DistinctKeys) {key : List Char} {v : Value}
    (isMember : (key, v) ∈ members) : members.lookup key = some v := by
  cases distinct with
  | object keys _ => exact lookup_of_nodup keys isMember

/-! ## Whitespace and numbers -/

def isSpace (c : Char) : Bool := c = ' ' || c = '\t' || c = '\n' || c = '\r'

def Space (w : List Char) : Prop := ∀ c ∈ w, isSpace c

def Digits (s : List Char) : Prop := s ≠ [] ∧ ∀ c ∈ s, c.isDigit

/-- The number that decimal digits say. -/
def ofDigits (s : List Char) : Nat := Nat.ofDigitChars 10 s 0

inductive Sign : Bool → List Char → Prop
  | none : Sign false []
  | minus : Sign true ['-']

/-- `int = zero / ( digit1-9 *DIGIT )` -/
inductive IntPart : List Char → Prop
  | zero : IntPart ['0']
  | digits {c : Char} {s : List Char} (leading : c ≠ '0') (ds : Digits (c :: s)) : IntPart (c :: s)

/-- `frac = decimal-point 1*DIGIT`, or nothing -/
inductive Fraction : List Char → List Char → Prop
  | none : Fraction [] []
  | point {s : List Char} (ds : Digits s) : Fraction s ('.' :: s)

/-- `exp = e [ minus / plus ] 1*DIGIT`, or nothing -/
inductive Exponent : Int → List Char → Prop
  | none : Exponent 0 []
  | unsigned {e : Char} {s : List Char} (isE : e = 'e' ∨ e = 'E') (ds : Digits s) :
      Exponent (ofDigits s) (e :: s)
  | plus {e : Char} {s : List Char} (isE : e = 'e' ∨ e = 'E') (ds : Digits s) :
      Exponent (ofDigits s) (e :: '+' :: s)
  | minus {e : Char} {s : List Char} (isE : e = 'e' ∨ e = 'E') (ds : Digits s) :
      Exponent (-ofDigits s) (e :: '-' :: s)

/-- The mantissa of the digits before and behind the decimal point. -/
def mantissa (negative : Bool) (digits : List Char) : Int :=
  if negative then -ofDigits digits else ofDigits digits

/-- `number = [ minus ] int [ frac ] [ exp ]` -/
inductive Number : Int × Int → List Char → Prop
  | mk {negative : Bool} {exponent : Int} {minus int digits frac exp : List Char}
      (sign : Sign negative minus) (intPart : IntPart int) (fraction : Fraction digits frac)
      (exponentPart : Exponent exponent exp) :
      Number (mantissa negative (int ++ digits), exponent - digits.length)
        (minus ++ (int ++ (frac ++ exp)))

/-! ## Strings -/

/-- What a one-letter escape stands for. -/
def escaped : Char → Option Char
  | '"' => some '"'
  | '\\' => some '\\'
  | '/' => some '/'
  | 'b' => some '\x08'
  | 'f' => some '\x0c'
  | 'n' => some '\n'
  | 'r' => some '\r'
  | 't' => some '\t'
  | _ => none

def hexDigit (c : Char) : Option Nat :=
  if '0' ≤ c ∧ c ≤ '9' then some (c.toNat - '0'.toNat)
  else if 'a' ≤ c ∧ c ≤ 'f' then some (c.toNat - 'a'.toNat + 10)
  else if 'A' ≤ c ∧ c ≤ 'F' then some (c.toNat - 'A'.toNat + 10)
  else none

/-- `4HEXDIG` -/
def hexQuad : List Char → Option Nat
  | [a, b, c, d] => do
      let a ← hexDigit a
      let b ← hexDigit b
      let c ← hexDigit c
      let d ← hexDigit d
      some (((a * 16 + b) * 16 + c) * 16 + d)
  | _ => none

/-- The character of a UTF-16 surrogate pair. -/
def surrogatePair (hi lo : Nat) : Char :=
  Char.ofNat (0x10000 + (hi - 0xd800) * 0x400 + (lo - 0xdc00))

/-- One character of a string. Half a surrogate pair is no character. -/
inductive Element : Char → List Char → Prop
  | unescaped {c : Char} (large : 0x20 ≤ c.toNat) (quote : c ≠ '"') (backslash : c ≠ '\\') :
      Element c [c]
  | escape {e c : Char} (isEscape : escaped e = some c) : Element c ['\\', e]
  | unicode {n : Nat} {quad : List Char} (hex : hexQuad quad = some n)
      (scalar : n < 0xd800 ∨ 0xdfff < n) : Element (Char.ofNat n) ('\\' :: 'u' :: quad)
  | surrogates {hi lo : Nat} {quad quad' : List Char} (hex : hexQuad quad = some hi)
      (high : 0xd800 ≤ hi ∧ hi < 0xdc00) (hex' : hexQuad quad' = some lo)
      (low : 0xdc00 ≤ lo ∧ lo < 0xe000) :
      Element (surrogatePair hi lo) ('\\' :: 'u' :: (quad ++ '\\' :: 'u' :: quad'))

inductive Chars : List Char → List Char → Prop
  | nil : Chars [] []
  | cons {c : Char} {cs s t : List Char} (element : Element c s) (chars : Chars cs t) :
      Chars (c :: cs) (s ++ t)

/-- `string = quotation-mark *char quotation-mark` -/
inductive Quoted : List Char → List Char → Prop
  | mk {cs s : List Char} (chars : Chars cs s) : Quoted cs ('"' :: (s ++ ['"']))

/-! ## Arrays and objects -/

section Items

variable {α : Type*}

/-- An item with whitespace around. -/
inductive Padded (Item : α → List Char → Prop) : α → List Char → Prop
  | mk {x : α} {w s w' : List Char} (before : Space w) (item : Item x s) (behind : Space w') :
      Padded Item x (w ++ (s ++ w'))

/-- Items with commas between them, one at least. -/
inductive Separated (Item : α → List Char → Prop) : List α → List Char → Prop
  | one {x : α} {s : List Char} (item : Item x s) : Separated Item [x] s
  | cons {x : α} {xs : List α} {s t : List Char} (item : Item x s)
      (items : Separated Item xs t) : Separated Item (x :: xs) (s ++ ',' :: t)

/-- The items up to a closing bracket. -/
inductive Bracketed (Item : α → List Char → Prop) (close : Char) : List α → List Char → Prop
  | empty {w : List Char} (space : Space w) : Bracketed Item close [] (w ++ [close])
  | items {xs : List α} {s : List Char} (items : Separated (Padded Item) xs s) :
      Bracketed Item close xs (s ++ [close])

end Items

/-- `member = string name-separator value` -/
inductive Member (Inner : Value → List Char → Prop) : List Char × Value → List Char → Prop
  | mk {k : List Char} {v : Value} {s w w' t : List Char} (key : Quoted k s) (before : Space w)
      (behind : Space w') (inner : Inner v t) :
      Member Inner (k, v) (s ++ (w ++ ':' :: (w' ++ t)))

/-- A value whose elements or members are as `Inner` says. -/
inductive Shape (Inner : Value → List Char → Prop) : Value → List Char → Prop
  | null : Shape Inner .null ['n', 'u', 'l', 'l']
  | true : Shape Inner (.bool true) ['t', 'r', 'u', 'e']
  | false : Shape Inner (.bool false) ['f', 'a', 'l', 's', 'e']
  | number {n : Int × Int} {s : List Char} (number : Number n s) : Shape Inner (.number n.1 n.2) s
  | string {cs s : List Char} (quoted : Quoted cs s) : Shape Inner (.string cs) s
  | array {vs : List Value} {s : List Char} (items : Bracketed Inner ']' vs s) :
      Shape Inner (.array vs) ('[' :: s)
  | object {ms : List (List Char × Value)} {s : List Char}
      (items : Bracketed (Member Inner) '}' ms s) : Shape Inner (.object ms) ('{' :: s)

/-- The texts of a value nested less than `depth` deep. -/
def Text : Nat → Value → List Char → Prop
  | 0 => fun _ _ => False
  | depth + 1 => Shape (Text depth)

/-- `JSON-text = ws value ws` -/
def Document (v : Value) (s : List Char) : Prop := ∃ depth, Padded (Text depth) v s

/-! ## Texts written without whitespace -/

theorem Space.nil : Space [] := fun _ inNil => absurd inNil List.not_mem_nil

theorem toDigits_leading {n : Nat} (pos : 0 < n) :
    ∃ c s, Nat.toDigits 10 n = c :: s ∧ c ≠ '0' := by
  induction n using Nat.strong_induction_on with
  | _ n ih =>
      rcases Nat.lt_or_ge n 10 with small | large
      · refine ⟨n.digitChar, [], Nat.toDigits_of_lt_base small, ?_⟩
        interval_cases n <;> decide
      · obtain ⟨c, s, eq, leading⟩ := ih (n / 10) (by omega) (by omega)
        refine ⟨c, s ++ [(n % 10).digitChar], ?_, leading⟩
        rw [Nat.toDigits_of_base_le (by decide) large, eq, List.cons_append]

theorem intPart_toDigits (n : Nat) : IntPart (Nat.toDigits 10 n) := by
  rcases Nat.eq_zero_or_pos n with rfl | pos
  · exact .zero
  · have digits : Digits (Nat.toDigits 10 n) :=
      ⟨Nat.toDigits_ne_nil, fun c inDigits =>
        Nat.isDigit_of_mem_toDigits (by decide) (by decide) inDigits⟩
    obtain ⟨c, s, eq, leading⟩ := toDigits_leading pos
    rw [eq] at digits ⊢
    exact .digits leading digits

/-- A natural number is written in decimal. -/
theorem number_text {Inner : Value → List Char → Prop} (n : Nat) :
    Shape Inner (.number n 0) (Nat.toDigits 10 n) := by
  have number := Number.mk .none (intPart_toDigits n) .none .none
  simp only [List.append_nil, List.nil_append, List.length_nil, Nat.cast_zero, sub_zero] at number
  have said : mantissa false (Nat.toDigits 10 n) = n :=
    congrArg Nat.cast Nat.ofDigitChars_ten_toDigits
  rw [said] at number
  exact .number number

section Commas

variable {α β : Type*} {Item : β → List Char → Prop} {said : α → β} {x : α} {xs : List α}
  {text : α → List Char}

theorem Padded.of_item {y : β} {s : List Char} (item : Item y s) : Padded Item y s := by
  have padded := Padded.mk Space.nil item Space.nil
  rwa [List.nil_append, List.append_nil] at padded

/-- Items with commas put between them. -/
def commas (text : α → List Char) (xs : List α) : List Char := [','].intercalate (xs.map text)

theorem commas_nil : commas text [] = [] := List.intercalate_nil

theorem commas_singleton : commas text [x] = text x := by simp [commas]

theorem commas_cons_cons {y : α} {ys : List α} :
    commas text (x :: y :: ys) = text x ++ ',' :: commas text (y :: ys) := by
  simp [commas, List.intercalate]

theorem separated_commas (items : ∀ y ∈ x :: xs, Item (said y) (text y)) :
    Separated Item ((x :: xs).map said) (commas text (x :: xs)) := by
  induction xs generalizing x with
  | nil =>
      rw [commas_singleton]
      exact .one (items x List.mem_cons_self)
  | cons y ys ih =>
      rw [commas_cons_cons]
      exact .cons (items x List.mem_cons_self) (ih fun z inRest => items z (List.mem_cons_of_mem _ inRest))

/-- What stands in brackets, with commas put between the items. -/
theorem bracketed_commas {close : Char} (items : ∀ y ∈ xs, Item (said y) (text y)) :
    Bracketed Item close (xs.map said) (commas text xs ++ [close]) := by
  cases xs with
  | nil => exact .empty (w := []) Space.nil
  | cons x xs => exact .items (separated_commas fun y inItems => Padded.of_item (items y inItems))

end Commas

end Json
