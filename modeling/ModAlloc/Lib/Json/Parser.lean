import ModAlloc.Lib.Json.Grammar

/-!
# A JSON parser

`parse` reads the texts of the grammar of `ModAlloc.Lib.Json.Grammar`, all of them and
nothing else: `parse s = some v` exactly where `s` says `v` (`parse_eq_some`). Each of
its parts is shown to read its rule of the grammar (`Reads`), and a part that repeats
or nests takes fuel, for which the length of the text is enough.
-/

namespace Json

/-- What was read, and the rest of the text. -/
abbrev Parser (α : Type) := List Char → Option (α × List Char)

variable {α β : Type}

/-- `p` reads the texts of a rule, as long as the rest of the text does not go on with
something that `Stop` excludes. -/
structure Reads (p : Parser α) (Rule : α → List Char → Prop) (Stop : List Char → Prop) : Prop where
  sound : ∀ {s r : List Char} {x : α}, p s = some (x, r) → ∃ t, s = t ++ r ∧ Rule x t
  complete : ∀ {t r : List Char} {x : α}, Rule x t → Stop r → p (t ++ r) = some (x, r)

/-- Any rest. -/
def Any (_ : List Char) : Prop := True

/-- The rest does not begin with a character of `p`. -/
def Stops (p : Char → Bool) (r : List Char) : Prop := ∀ c ∈ r.head?, p c = false

theorem Stops.nil (p : Char → Bool) : Stops p [] := fun _ inNone => nomatch inNone

theorem Stops.mono {p q : Char → Bool} {r : List Char} (stops : Stops p r)
    (fewer : ∀ c, q c = true → p c = true) : Stops q r := by
  intro c isHead
  have := stops c isHead
  by_contra isQ
  rw [fewer c (by simpa using isQ)] at this
  cases this

theorem Stops.cons {p : Char → Bool} {c : Char} (stops : p c = false) (r : List Char) :
    Stops p (c :: r) := by
  intro d isHead
  cases isHead
  exact stops

/-- A run of characters of `p` ends where the rest begins. -/
theorem Stops.takeWhile {p : Char → Bool} {t r : List Char} (run : ∀ c ∈ t, p c)
    (stops : Stops p r) : (t ++ r).takeWhile p = t ∧ (t ++ r).dropWhile p = r := by
  have rest : r.takeWhile p = [] ∧ r.dropWhile p = r := by
    cases r with
    | nil => exact ⟨rfl, rfl⟩
    | cons c r =>
        have := stops c rfl
        simp [this]
  rw [List.takeWhile_append_of_pos run, List.dropWhile_append_of_pos run, rest.1, rest.2,
    List.append_nil]
  exact ⟨rfl, rfl⟩

/-! ## Words and whitespace -/

/-- The rest behind a word. -/
def expect : List Char → List Char → Option (List Char)
  | [], s => some s
  | _ :: _, [] => none
  | c :: w, d :: s => if c = d then expect w s else none

theorem expect_eq_some {w s r : List Char} : expect w s = some r ↔ s = w ++ r := by
  induction w generalizing s with
  | nil => simp [expect]
  | cons c w ih =>
      cases s with
      | nil => simp [expect]
      | cons d s =>
          unfold expect
          split
          case isTrue same => simp [ih, same]
          case isFalse other => simp [Ne.symm other]

theorem expect_append (w r : List Char) : expect w (w ++ r) = some r := expect_eq_some.mpr rfl

theorem expect_eq_none {c : Char} {r : List Char} {p : Char → Bool} (stops : Stops p r)
    (own : p c = true) : expect [c] r = none := by
  cases found : expect [c] r with
  | none => rfl
  | some r' =>
      rw [expect_eq_some.mp found] at stops
      have := stops c rfl
      rw [own] at this
      cases this

/-- A word that stands for a value. -/
def word (w : List Char) (x : α) : Parser α := fun s => (expect w s).map fun r => (x, r)

theorem reads_word (w : List Char) (x : α) : Reads (word w x) (fun y t => y = x ∧ t = w) Any where
  sound read := by
    obtain ⟨r, found, same⟩ := Option.map_eq_some_iff.mp read
    cases same
    exact ⟨w, expect_eq_some.mp found, rfl, rfl⟩
  complete := by
    rintro t r y ⟨rfl, rfl⟩ _
    rw [word, expect_append]
    rfl

def skip (s : List Char) : List Char := s.dropWhile isSpace

theorem skip_sound (s : List Char) : ∃ w, s = w ++ skip s ∧ Space w := by
  refine ⟨s.takeWhile isSpace, List.takeWhile_append_dropWhile.symm, fun c inSpace => ?_⟩
  exact List.mem_takeWhile_imp inSpace

theorem skip_complete {w r : List Char} (space : Space w) (stops : Stops isSpace r) :
    skip (w ++ r) = r := (Stops.takeWhile space stops).2

/-! ## Numbers -/

def digits : Parser (List Char) := fun s =>
  if s.takeWhile Char.isDigit = [] then none
  else some (s.takeWhile Char.isDigit, s.dropWhile Char.isDigit)

theorem reads_digits : Reads digits (fun ds t => t = ds ∧ Digits t) (Stops Char.isDigit) where
  sound := by
    intro s r x read
    unfold digits at read
    split at read
    case isTrue => cases read
    case isFalse some =>
        cases read
        exact ⟨_, List.takeWhile_append_dropWhile.symm, rfl, some,
          fun c inRun => List.mem_takeWhile_imp inRun⟩
  complete := by
    rintro t r _ ⟨rfl, nonempty, run⟩ stops
    obtain ⟨taken, dropped⟩ := Stops.takeWhile run stops
    rw [digits, taken, dropped, if_neg nonempty]

def sign : Parser Bool := fun s =>
  match expect ['-'] s with
  | some r => some (true, r)
  | none => some (false, s)

theorem reads_sign : Reads sign Sign (Stops (· = '-')) where
  sound := by
    intro s r x read
    unfold sign at read
    split at read
    case h_1 r' found =>
        cases read
        exact ⟨['-'], expect_eq_some.mp found, .minus⟩
    case h_2 => cases read; exact ⟨[], rfl, .none⟩
  complete := by
    rintro t r x (_ | _) stops
    · rw [List.nil_append, sign, expect_eq_none stops (by decide)]
    · rw [sign, expect_append]

def intPart : Parser (List Char) := fun s =>
  match expect ['0'] s with
  | some r => some (['0'], r)
  | none => digits s

theorem reads_intPart :
    Reads intPart (fun ds t => t = ds ∧ IntPart t) (Stops Char.isDigit) where
  sound := by
    intro s r x read
    unfold intPart at read
    split at read
    case h_1 r' found =>
        cases read
        exact ⟨['0'], expect_eq_some.mp found, rfl, .zero⟩
    case h_2 absent =>
        obtain ⟨t, rfl, rfl, ds⟩ := reads_digits.sound read
        refine ⟨t, rfl, rfl, ?_⟩
        obtain ⟨c, t, rfl⟩ := List.exists_cons_of_ne_nil ds.1
        refine .digits ?_ ds
        rintro rfl
        rw [List.cons_append, expect, if_pos rfl, expect] at absent
        cases absent
  complete := by
    rintro t r _ ⟨rfl, _ | ⟨leading, ds⟩⟩ stops
    · rw [intPart, expect_append]
    · rw [intPart, List.cons_append, expect, if_neg (Ne.symm leading)]
      exact reads_digits.complete ⟨rfl, ds⟩ stops

def fraction : Parser (List Char) := fun s =>
  match expect ['.'] s with
  | some r => digits r
  | none => some ([], s)

theorem reads_fraction :
    Reads fraction Fraction (Stops fun c => c.isDigit || c = '.') where
  sound := by
    intro s r x read
    unfold fraction at read
    split at read
    case h_1 r' found =>
        obtain ⟨t, rfl, rfl, ds⟩ := reads_digits.sound read
        exact ⟨'.' :: t, by rw [expect_eq_some.mp found]; rfl, .point ds⟩
    case h_2 => cases read; exact ⟨[], rfl, .none⟩
  complete := by
    rintro t r x (_ | ⟨ds⟩) stops
    · rw [List.nil_append, fraction, expect_eq_none stops (by decide)]
    · rw [fraction, List.cons_append, expect, if_pos rfl, expect]
      exact reads_digits.complete ⟨rfl, ds⟩ (stops.mono fun c digit => by simp [digit])

/-- Digits behind a sign, which may be missing. -/
def signedDigits : Parser Int := fun s =>
  match expect ['-'] s with
  | some r => (digits r).map fun p => (-ofDigits p.1, p.2)
  | none =>
      match expect ['+'] s with
      | some r => (digits r).map fun p => (ofDigits p.1, p.2)
      | none => (digits s).map fun p => (ofDigits p.1, p.2)

def isE (c : Char) : Bool := c = 'e' || c = 'E'

def exponent : Parser Int := fun s =>
  match s with
  | [] => some (0, [])
  | c :: r => if isE c then signedDigits r else some (0, c :: r)

theorem reads_exponent : Reads exponent Exponent (Stops fun c => c.isDigit || isE c) where
  sound := by
    intro s r x read
    unfold exponent at read
    split at read
    case h_1 => cases read; exact ⟨[], rfl, .none⟩
    case h_2 e s =>
        split at read
        case isFalse => cases read; exact ⟨[], rfl, .none⟩
        case isTrue announced =>
            have isE : e = 'e' ∨ e = 'E' := by simpa [isE] using announced
            unfold signedDigits at read
            split at read
            case h_1 r' found =>
                obtain ⟨p, inDigits, same⟩ := Option.map_eq_some_iff.mp read
                cases same
                obtain ⟨t, rfl, rfl, ds⟩ := reads_digits.sound inDigits
                exact ⟨e :: '-' :: p.1, by rw [expect_eq_some.mp found]; rfl, .minus isE ds⟩
            case h_2 =>
                split at read
                case h_1 r' found =>
                    obtain ⟨p, inDigits, same⟩ := Option.map_eq_some_iff.mp read
                    cases same
                    obtain ⟨t, rfl, rfl, ds⟩ := reads_digits.sound inDigits
                    exact ⟨e :: '+' :: p.1, by rw [expect_eq_some.mp found]; rfl, .plus isE ds⟩
                case h_2 =>
                    obtain ⟨p, inDigits, same⟩ := Option.map_eq_some_iff.mp read
                    cases same
                    obtain ⟨t, rfl, rfl, ds⟩ := reads_digits.sound inDigits
                    exact ⟨e :: p.1, rfl, .unsigned isE ds⟩
  complete := by
    intro t r x text stops
    have stops' : Stops Char.isDigit r := stops.mono fun c digit => by simp [digit]
    have announced : ∀ {e : Char}, e = 'e' ∨ e = 'E' → isE e = true := by
      rintro e (rfl | rfl) <;> rfl
    cases text with
    | none =>
        cases r with
        | nil => rfl
        | cons c r =>
            have := stops c rfl
            simp only [Bool.or_eq_false_iff] at this
            simp [exponent, this.2]
    | @unsigned e s isE ds =>
        have first : ∀ {c : Char}, c.isDigit = false → expect [c] (s ++ r) = .none := by
          intro c other
          obtain ⟨d, s, rfl⟩ := List.exists_cons_of_ne_nil ds.1
          rw [List.cons_append, expect, if_neg]
          rintro rfl
          rw [ds.2 c List.mem_cons_self] at other
          cases other
        simp only [List.cons_append, exponent, announced isE, if_true, signedDigits,
          first (c := '-') rfl, first (c := '+') rfl, reads_digits.complete ⟨rfl, ds⟩ stops',
          Option.map_some]
    | plus isE ds =>
        simp only [List.cons_append, exponent, announced isE, if_true, signedDigits, expect,
          Char.reduceEq, if_false, reads_digits.complete ⟨rfl, ds⟩ stops', Option.map_some]
    | minus isE ds =>
        simp only [List.cons_append, exponent, announced isE, if_true, signedDigits, expect,
          reads_digits.complete ⟨rfl, ds⟩ stops', Option.map_some]

def number : Parser (Int × Int) := fun s => do
  let (negative, s) ← sign s
  let (int, s) ← intPart s
  let (frac, s) ← fraction s
  let (exp, s) ← exponent s
  some ((mantissa negative (int ++ frac), exp - frac.length), s)

/-- A character that a number can go on with. -/
def isNumberChar (c : Char) : Bool := c.isDigit || c = '.' || isE c

theorem exponent_stops {x : Int} {t r : List Char} (text : Exponent x t)
    (stops : Stops isNumberChar r) : Stops (fun c => c.isDigit || c = '.') (t ++ r) := by
  have letter : ∀ {e : Char} {s : List Char}, e = 'e' ∨ e = 'E' →
      Stops (fun c => c.isDigit || c = '.') (e :: s) := by
    rintro e s (rfl | rfl) <;> exact Stops.cons rfl _
  cases text with
  | none => exact stops.mono fun c more => by simp [isNumberChar, more]
  | unsigned isE _ | plus isE _ | minus isE _ => exact letter isE

theorem fraction_stops {x t r : List Char} (text : Fraction x t)
    (stops : Stops (fun c => c.isDigit || c = '.') r) : Stops Char.isDigit (t ++ r) := by
  cases text with
  | none => exact stops.mono fun c digit => by simp [digit]
  | point ds => exact Stops.cons rfl _

theorem intPart_stops {t : List Char} (text : IntPart t) (r : List Char) :
    Stops (· = '-') (t ++ r) := by
  cases text with
  | zero => exact Stops.cons rfl _
  | @digits c s _ ds =>
      refine Stops.cons (decide_eq_false ?_) _
      rintro rfl
      exact absurd (ds.2 '-' List.mem_cons_self) (by decide)

theorem reads_number : Reads number Number (Stops isNumberChar) where
  sound := by
    intro s r x read
    simp only [number, Option.bind_eq_bind, Option.bind_eq_some_iff, Prod.exists] at read
    obtain ⟨negative, s₁, isSign, int, s₂, isInt, frac, s₃, isFraction, exp, s₄, isExponent, same⟩ := read
    cases same
    obtain ⟨minus, rfl, sign⟩ := reads_sign.sound isSign
    obtain ⟨_, rfl, rfl, intPart⟩ := reads_intPart.sound isInt
    obtain ⟨_, rfl, fraction⟩ := reads_fraction.sound isFraction
    obtain ⟨_, rfl, exponentPart⟩ := reads_exponent.sound isExponent
    exact ⟨_, by simp only [List.append_assoc], .mk sign intPart fraction exponentPart⟩
  complete := by
    rintro t r x ⟨sign, intPart, fraction, exponentPart⟩ stops
    have stops₁ := exponent_stops exponentPart stops
    have stops₂ := fraction_stops fraction stops₁
    simp only [number, List.append_assoc, reads_sign.complete sign (intPart_stops intPart _),
      reads_intPart.complete ⟨rfl, intPart⟩ stops₂, reads_fraction.complete fraction stops₁,
      reads_exponent.complete exponentPart (stops.mono fun c more => by
        rw [isNumberChar, Bool.or_assoc]
        revert more
        cases c.isDigit <;> simp +contextual),
      Option.bind_eq_bind, Option.bind_some]

/-! ## Strings -/

def quad : Parser Nat := fun s => (hexQuad (s.take 4)).map fun n => (n, s.drop 4)

theorem length_of_hexQuad {s : List Char} {n : Nat} (hex : hexQuad s = some n) : s.length = 4 := by
  unfold hexQuad at hex
  split at hex
  · rfl
  · cases hex

theorem reads_quad : Reads quad (fun n t => hexQuad t = some n) Any where
  sound := by
    intro s r x read
    obtain ⟨n, hex, same⟩ := Option.map_eq_some_iff.mp read
    cases same
    exact ⟨s.take 4, (List.take_append_drop 4 s).symm, hex⟩
  complete := by
    intro t r n hex _
    have four := length_of_hexQuad hex
    rw [quad, List.take_left' four, List.drop_left' four, hex]
    rfl

/-- What follows `\\u`. -/
def unicode : Parser Char := fun s => do
  let (hi, s) ← quad s
  if hi < 0xd800 ∨ 0xdfff < hi then some (Char.ofNat hi, s)
  else
    let s ← expect ['\\', 'u'] s
    let (lo, s) ← quad s
    if hi < 0xdc00 ∧ 0xdc00 ≤ lo ∧ lo < 0xe000 then some (surrogatePair hi lo, s) else none

/-- What follows a backslash. -/
def escape : Parser Char := fun s =>
  match s with
  | [] => none
  | e :: s => if e = 'u' then unicode s else (escaped e).map fun c => (c, s)

def element : Parser Char := fun s =>
  match s with
  | [] => none
  | c :: s =>
      if c = '\\' then escape s
      else if c = '"' ∨ c.toNat < 0x20 then none
      else some (c, s)

theorem reads_unicode :
    Reads unicode (fun c t => Element c ('\\' :: 'u' :: t)) Any where
  sound := by
    intro s r c read
    simp only [unicode, Option.bind_eq_bind, Option.bind_eq_some_iff, Prod.exists] at read
    obtain ⟨hi, s₁, isQuad, rest⟩ := read
    obtain ⟨t, rfl, hex⟩ := reads_quad.sound isQuad
    split at rest
    case isTrue scalar =>
        cases rest
        exact ⟨t, rfl, .unicode hex scalar⟩
    case isFalse half =>
        simp only [Option.bind_eq_some_iff, Prod.exists] at rest
        obtain ⟨s₂, again, lo, s₃, isQuad', rest⟩ := rest
        obtain ⟨t', rfl, hex'⟩ := reads_quad.sound isQuad'
        split at rest
        case isTrue pair =>
            simp only [Option.some.injEq, Prod.mk.injEq] at rest
            obtain ⟨rfl, rfl⟩ := rest
            refine ⟨t ++ '\\' :: 'u' :: t', ?_, .surrogates hex ⟨by omega, pair.1⟩ hex' pair.2⟩
            rw [expect_eq_some.mp again]
            simp only [List.append_assoc, List.cons_append, List.nil_append]
        case isFalse => cases rest
  complete := by
    intro t r c text _
    generalize whole : '\\' :: 'u' :: t = u at text
    cases text with
    | unescaped => cases whole
    | escape isEscape =>
        cases whole
        have none : escaped 'u' = .none := by decide
        rw [none] at isEscape
        cases isEscape
    | unicode hex scalar =>
        cases whole
        simp only [unicode, reads_quad.complete hex trivial, Option.bind_eq_bind, Option.bind_some,
          if_pos scalar]
    | @surrogates hi lo s s' hex high hex' low =>
        cases whole
        have half : ¬ (hi < 0xd800 ∨ 0xdfff < hi) := by omega
        have again := expect_append ['\\', 'u'] (s' ++ r)
        simp only [List.cons_append, List.nil_append] at again
        simp only [unicode, List.append_assoc, List.cons_append, reads_quad.complete hex trivial,
          reads_quad.complete hex' trivial, again, Option.bind_eq_bind, Option.bind_some, if_neg half,
          if_pos (show hi < 0xdc00 ∧ 0xdc00 ≤ lo ∧ lo < 0xe000 from ⟨high.2, low⟩)]

theorem reads_element : Reads element Element Any where
  sound := by
    intro s r c read
    unfold element at read
    split at read
    case h_1 => cases read
    case h_2 d s =>
        split at read
        case isTrue backslash =>
            subst backslash
            unfold escape at read
            split at read
            case h_1 => cases read
            case h_2 e s =>
                split at read
                case isTrue isU =>
                    subst isU
                    obtain ⟨t, rfl, text⟩ := reads_unicode.sound read
                    exact ⟨_, rfl, text⟩
                case isFalse =>
                    obtain ⟨c, isEscape, same⟩ := Option.map_eq_some_iff.mp read
                    cases same
                    exact ⟨['\\', e], rfl, .escape isEscape⟩
        case isFalse plain =>
            split at read
            case isTrue => cases read
            case isFalse allowed =>
                cases read
                refine ⟨[c], rfl, .unescaped ?_ (fun quote => allowed (.inl quote)) plain⟩
                exact Nat.le_of_not_lt fun control => allowed (.inr control)
  complete := by
    intro t r c text _
    have unicode : ∀ {t : List Char}, Element c ('\\' :: 'u' :: t) →
        element ('\\' :: 'u' :: t ++ r) = some (c, r) := by
      intro t text
      simp only [List.cons_append, element, if_true, escape]
      exact reads_unicode.complete text trivial
    cases text with
    | unescaped large quote backslash =>
        have allowed : ¬ (c = '"' ∨ c.toNat < 0x20) := by
          rintro (isQuote | control)
          · exact quote isQuote
          · omega
        simp only [List.cons_append, List.nil_append, element, if_neg backslash, if_neg allowed]
    | @escape e _ isEscape =>
        have notU : e ≠ 'u' := by
          rintro rfl
          have none : escaped 'u' = .none := by decide
          rw [none] at isEscape
          cases isEscape
        simp only [List.cons_append, List.nil_append, element, if_true, escape, if_neg notU, isEscape,
          Option.map_some]
    | unicode hex scalar => exact unicode (.unicode hex scalar)
    | surrogates hex high hex' low => exact unicode (.surrogates hex high hex' low)

/-- The characters up to the closing quotation mark. -/
def chars : Nat → Parser (List Char)
  | 0, _ => none
  | _ + 1, [] => none
  | fuel + 1, d :: s =>
      if d = '"' then some ([], s)
      else do
        let (c, s) ← element (d :: s)
        let (cs, s) ← chars fuel s
        some (c :: cs, s)

def quoted : Parser (List Char) := fun s => do
  let s ← expect ['"'] s
  chars (s.length + 1) s

theorem chars_sound {fuel : Nat} {s r cs : List Char} (read : chars fuel s = some (cs, r)) :
    ∃ t, s = t ++ '"' :: r ∧ Chars cs t := by
  induction fuel generalizing s cs with
  | zero => cases read
  | succ fuel ih =>
      cases s with
      | nil => cases read
      | cons d s =>
          unfold chars at read
          split at read
          case isTrue quote =>
              cases read
              exact ⟨[], by rw [quote]; rfl, .nil⟩
          case isFalse =>
              simp only [Option.bind_eq_bind, Option.bind_eq_some_iff, Prod.exists] at read
              obtain ⟨c, s₁, isElement, cs', s₂, more, same⟩ := read
              cases same
              obtain ⟨t, eq, element⟩ := reads_element.sound isElement
              obtain ⟨t', rfl, chars⟩ := ih more
              exact ⟨t ++ t', by rw [eq, List.append_assoc], .cons element chars⟩

/-- An element begins with something else than a quotation mark. -/
theorem Element.head {c : Char} {s : List Char} (element : Element c s) :
    ∃ d t, s = d :: t ∧ d ≠ '"' := by
  cases element with
  | unescaped large quote _ => exact ⟨c, [], rfl, quote⟩
  | escape | unicode | surrogates => exact ⟨'\\', _, rfl, by decide⟩

theorem chars_complete {fuel : Nat} {t cs : List Char} (text : Chars cs t) (r : List Char)
    (enough : t.length < fuel) : chars fuel (t ++ '"' :: r) = some (cs, r) := by
  induction text generalizing fuel with
  | nil =>
      obtain ⟨fuel, rfl⟩ := Nat.exists_eq_succ_of_ne_zero (Nat.ne_of_gt enough)
      rw [List.nil_append, chars, if_pos rfl]
  | @cons c cs s t element text ih =>
      obtain ⟨fuel, rfl⟩ := Nat.exists_eq_succ_of_ne_zero (Nat.ne_of_gt (Nat.zero_lt_of_lt enough))
      have read := reads_element.complete (r := t ++ '"' :: r) element trivial
      obtain ⟨d, u, rfl, other⟩ := element.head
      rw [List.length_append, List.length_cons] at enough
      have enough : t.length < fuel := by omega
      have rest := ih enough
      rw [List.append_assoc, List.cons_append, chars, if_neg other, ← List.cons_append, read]
      simp only [Option.bind_eq_bind, Option.bind_some, rest]

theorem reads_quoted : Reads quoted Quoted Any where
  sound := by
    intro s r cs read
    simp only [quoted, Option.bind_eq_bind, Option.bind_eq_some_iff] at read
    obtain ⟨s₁, opened, read⟩ := read
    obtain ⟨t, rfl, text⟩ := chars_sound read
    refine ⟨_, ?_, .mk text⟩
    rw [expect_eq_some.mp opened]
    simp only [List.cons_append, List.nil_append, List.append_assoc]
  complete := by
    intro _ r cs text _
    cases text with
    | @mk s text =>
        have enough : s.length < (s ++ '"' :: r).length + 1 := by
          rw [List.length_append]
          omega
        simp only [quoted, List.cons_append, List.append_assoc, List.nil_append, expect, if_true,
          Option.bind_eq_bind, Option.bind_some, chars_complete text r enough]

/-! ## Arrays and objects -/

/-- How a number begins. -/
def NumberHead (c : Char) : Prop := c = '-' ∨ c.isDigit = true

theorem NumberHead.ne {c d : Char} (first : NumberHead c) (minus : d ≠ '-')
    (digit : d.isDigit = false) : c ≠ d := by
  rintro rfl
  rcases first with isMinus | isDigit
  · exact minus isMinus
  · rw [digit] at isDigit
    cases isDigit

theorem Number.head {n : Int × Int} {t : List Char} (number : Number n t) :
    ∃ c u, t = c :: u ∧ NumberHead c := by
  obtain ⟨sign, intPart, _, _⟩ := number
  cases sign with
  | minus => exact ⟨'-', _, rfl, .inl rfl⟩
  | none =>
      cases intPart with
      | zero => exact ⟨'0', _, rfl, .inr rfl⟩
      | @digits c s _ ds => exact ⟨c, _, rfl, .inr (ds.2 c List.mem_cons_self)⟩

/-- The texts of a rule begin neither with whitespace nor with a closing bracket. -/
def Begins (Rule : α → List Char → Prop) : Prop :=
  ∀ {x : α} {t : List Char}, Rule x t →
    ∃ c u, t = c :: u ∧ isSpace c = false ∧ c ≠ ']' ∧ c ≠ '}'

def isItemChar (c : Char) : Bool := isSpace c || isNumberChar c

def padded (item : Parser α) : Parser α := fun s => do
  let (x, s) ← item (skip s)
  some (x, skip s)

def separated (item : Parser α) : Nat → Parser (List α)
  | 0, _ => none
  | fuel + 1, s => do
      let (x, s) ← item s
      match expect [','] s with
      | some s => do
          let (xs, s) ← separated item fuel s
          some (x :: xs, s)
      | none => some ([x], s)

def bracketed (item : Parser α) (close : Char) : Parser (List α) := fun s =>
  match expect [close] (skip s) with
  | some r => some ([], r)
  | none => do
      let (xs, s) ← separated (padded item) (s.length + 1) s
      let s ← expect [close] s
      some (xs, s)

def member (inner : Parser Value) : Parser (List Char × Value) := fun s => do
  let (k, s) ← quoted s
  let s ← expect [':'] (skip s)
  let (v, s) ← inner (skip s)
  some ((k, v), s)

section Items

variable {p : Parser α} {Rule : α → List Char → Prop} {xs : List α} {t r : List Char}

theorem Space.stops {w : List Char} (space : Space w) (stops : Stops isItemChar r) :
    Stops isNumberChar (w ++ r) := by
  cases w with
  | nil => exact stops.mono fun c more => by simp [isItemChar, more]
  | cons c w =>
      refine Stops.cons ?_ _
      have blank : isSpace c = true := space c List.mem_cons_self
      simp only [isSpace, decide_eq_true_eq, Bool.or_eq_true] at blank
      rcases blank with ((rfl | rfl) | rfl) | rfl <;> decide

theorem Begins.skip {x : α} {w : List Char} (begins : Begins Rule) (space : Space w)
    (text : Rule x t) : Json.skip (w ++ (t ++ r)) = t ++ r := by
  obtain ⟨c, u, rfl, solid, _⟩ := begins text
  exact skip_complete space (Stops.cons solid _)

theorem Reads.padded (reads : Reads p Rule (Stops isNumberChar)) (begins : Begins Rule) :
    Reads (padded p) (Padded Rule) (Stops isItemChar) where
  sound := by
    intro s r x read
    simp only [Json.padded, Option.bind_eq_bind, Option.bind_eq_some_iff, Prod.exists] at read
    obtain ⟨y, s₁, isItem, same⟩ := read
    cases same
    obtain ⟨w, eq, before⟩ := skip_sound s
    obtain ⟨w', eq', behind⟩ := skip_sound s₁
    obtain ⟨t, eq'', item⟩ := reads.sound isItem
    refine ⟨w ++ (t ++ w'), ?_, .mk before item behind⟩
    rw [List.append_assoc, List.append_assoc, ← eq', ← eq'', ← eq]
  complete := by
    intro t r x text stops
    cases text with
    | @mk w s w' before item behind =>
        have stops' : Stops isSpace r := stops.mono fun c more => by simp [isItemChar, more]
        have skipped : Json.skip (w ++ (s ++ (w' ++ r))) = s ++ (w' ++ r) := begins.skip before item
        simp only [Json.padded, List.append_assoc, skipped, reads.complete item (behind.stops stops),
          skip_complete behind stops', Option.bind_eq_bind, Option.bind_some]

theorem separated_sound {Stop : List Char → Prop} (reads : Reads p Rule Stop) {fuel : Nat}
    {s : List Char} (read : separated p fuel s = some (xs, r)) :
    ∃ t, s = t ++ r ∧ Separated Rule xs t := by
  induction fuel generalizing s xs with
  | zero => cases read
  | succ fuel ih =>
      simp only [separated, Option.bind_eq_bind, Option.bind_eq_some_iff, Prod.exists] at read
      obtain ⟨x, s₁, isItem, rest⟩ := read
      obtain ⟨t, rfl, item⟩ := reads.sound isItem
      split at rest
      case h_1 s₂ found =>
          simp only [Option.bind_eq_some_iff, Prod.exists] at rest
          obtain ⟨ys, s₃, more, same⟩ := rest
          cases same
          obtain ⟨u, rfl, items⟩ := ih more
          refine ⟨t ++ ',' :: u, ?_, .cons item items⟩
          rw [expect_eq_some.mp found]
          simp only [List.append_assoc, List.cons_append, List.nil_append]
      case h_2 =>
          cases rest
          exact ⟨t, rfl, .one item⟩

theorem separated_complete {stop : Char → Bool} (reads : Reads p Rule (Stops stop))
    (comma : stop ',' = false) (text : Separated Rule xs t) {fuel : Nat} (enough : t.length < fuel)
    (stops : Stops stop r) (last : Stops (· = ',') r) :
    separated p fuel (t ++ r) = some (xs, r) := by
  induction text generalizing fuel with
  | @one x s item =>
      obtain ⟨fuel, rfl⟩ := Nat.exists_eq_succ_of_ne_zero (Nat.ne_of_gt (Nat.zero_lt_of_lt enough))
      simp only [separated, reads.complete item stops, Option.bind_eq_bind, Option.bind_some,
        expect_eq_none (c := ',') last rfl]
  | @cons x xs s t item items ih =>
      obtain ⟨fuel, rfl⟩ := Nat.exists_eq_succ_of_ne_zero (Nat.ne_of_gt (Nat.zero_lt_of_lt enough))
      rw [List.length_append, List.length_cons] at enough
      have enough : t.length < fuel := by omega
      have rest := ih enough
      have next : expect [','] (',' :: (t ++ r)) = some (t ++ r) := expect_append [','] _
      simp only [separated, List.append_assoc, List.cons_append,
        reads.complete item (Stops.cons comma _), Option.bind_eq_bind, Option.bind_some, next, rest]

/-- A text of items begins with whitespace and an item. -/
theorem Begins.separated (begins : Begins Rule) (text : Separated (Padded Rule) xs t) :
    ∃ w c u, t = w ++ c :: u ∧ Space w ∧ isSpace c = false ∧ c ≠ ']' ∧ c ≠ '}' := by
  have first : ∀ {x : α} {s : List Char}, Padded Rule x s →
      ∃ w c u, s = w ++ c :: u ∧ Space w ∧ isSpace c = false ∧ c ≠ ']' ∧ c ≠ '}' := by
    rintro x _ ⟨before, item, _⟩
    obtain ⟨c, u, rfl, solid⟩ := begins item
    exact ⟨_, c, _, rfl, before, solid⟩
  cases text with
  | one item => exact first item
  | cons item _ =>
      obtain ⟨w, c, u, rfl, solid⟩ := first item
      exact ⟨w, c, _, by rw [List.append_assoc, List.cons_append], solid⟩

theorem Reads.bracketed (reads : Reads p Rule (Stops isNumberChar)) (begins : Begins Rule)
    {close : Char} (closing : close = ']' ∨ close = '}') :
    Reads (bracketed p close) (Bracketed Rule close) Any where
  sound := by
    intro s r xs read
    unfold Json.bracketed at read
    split at read
    case h_1 r' found =>
        cases read
        obtain ⟨w, eq, space⟩ := skip_sound s
        refine ⟨w ++ [close], ?_, .empty space⟩
        rw [List.append_assoc, ← expect_eq_some.mp found, ← eq]
    case h_2 =>
        simp only [Option.bind_eq_bind, Option.bind_eq_some_iff, Prod.exists] at read
        obtain ⟨ys, s₁, isItems, s₂, found, same⟩ := read
        cases same
        obtain ⟨t, rfl, items⟩ := separated_sound (reads.padded begins) isItems
        refine ⟨t ++ [close], ?_, .items items⟩
        rw [expect_eq_some.mp found, List.append_assoc]
  complete := by
    intro t r xs text _
    have solid : isSpace close = false ∧ isItemChar close = false ∧ close ≠ ',' := by
      rcases closing with rfl | rfl <;> decide
    cases text with
    | @empty w space =>
        have skipped : skip (w ++ close :: r) = close :: r :=
          skip_complete space (Stops.cons solid.1 _)
        have found : expect [close] (close :: r) = some r := expect_append [close] r
        simp only [Json.bracketed, List.append_assoc, List.cons_append, List.nil_append, skipped, found]
    | @items _ s items =>
        have skipped : expect [close] (skip (s ++ close :: r)) = none := by
          obtain ⟨w, c, u, rfl, space, isSolid, notArray, notObject⟩ := begins.separated items
          rw [List.append_assoc, List.cons_append, skip_complete space (Stops.cons isSolid _), expect,
            if_neg]
          rcases closing with rfl | rfl
          · exact Ne.symm notArray
          · exact Ne.symm notObject
        have read : separated (Json.padded p) ((s ++ close :: r).length + 1) (s ++ close :: r) =
            some (xs, close :: r) := by
          refine separated_complete (reads.padded begins) (by decide) items ?_
            (Stops.cons solid.2.1 _) (Stops.cons (decide_eq_false solid.2.2) _)
          rw [List.length_append]
          omega
        have found : expect [close] (close :: r) = some r := expect_append [close] r
        simp only [Json.bracketed, List.append_assoc, List.cons_append, List.nil_append, skipped, read,
          found, Option.bind_eq_bind, Option.bind_some]

end Items

section Nesting

variable {p : Parser Value} {Inner : Value → List Char → Prop}

theorem Reads.member (reads : Reads p Inner (Stops isNumberChar)) (begins : Begins Inner) :
    Reads (member p) (Member Inner) (Stops isNumberChar) where
  sound := by
    intro s r m read
    simp only [Json.member, Option.bind_eq_bind, Option.bind_eq_some_iff, Prod.exists] at read
    obtain ⟨k, s₁, isKey, s₂, colon, v, s₃, isValue, same⟩ := read
    cases same
    obtain ⟨t, rfl, key⟩ := reads_quoted.sound isKey
    obtain ⟨w, eq, before⟩ := skip_sound s₁
    obtain ⟨w', eq', behind⟩ := skip_sound s₂
    obtain ⟨u, eq'', inner⟩ := reads.sound isValue
    refine ⟨t ++ (w ++ ':' :: (w' ++ u)), ?_, .mk key before behind inner⟩
    have colon := expect_eq_some.mp colon
    simp only [List.append_assoc, List.cons_append, ← eq'', ← eq']
    rw [List.append_cancel_left_eq, eq, colon]
    rfl
  complete := by
    intro t r m text stops
    cases text with
    | @mk k v s w w' t key before behind inner =>
        have colon : skip (w ++ ':' :: (w' ++ (t ++ r))) = ':' :: (w' ++ (t ++ r)) :=
          skip_complete before (Stops.cons (by decide) _)
        have found : expect [':'] (':' :: (w' ++ (t ++ r))) = some (w' ++ (t ++ r)) :=
          expect_append [':'] _
        have skipped : skip (w' ++ (t ++ r)) = t ++ r := begins.skip behind inner
        simp only [Json.member, List.append_assoc, List.cons_append, reads_quoted.complete key trivial,
          colon, found, skipped, reads.complete inner stops, Option.bind_eq_bind, Option.bind_some]

theorem begins_member : Begins (Member Inner) := by
  rintro m t ⟨⟨chars⟩, _, _, _⟩
  exact ⟨'"', _, rfl, by decide, by decide, by decide⟩

def shape (inner : Parser Value) : Parser Value := fun s =>
  match s with
  | [] => none
  | c :: r =>
      if c = 'n' then word ['n', 'u', 'l', 'l'] .null (c :: r)
      else if c = 't' then word ['t', 'r', 'u', 'e'] (.bool true) (c :: r)
      else if c = 'f' then word ['f', 'a', 'l', 's', 'e'] (.bool false) (c :: r)
      else if c = '"' then (quoted (c :: r)).map fun p => (.string p.1, p.2)
      else if c = '[' then (bracketed inner ']' r).map fun p => (.array p.1, p.2)
      else if c = '{' then (bracketed (member inner) '}' r).map fun p => (.object p.1, p.2)
      else (number (c :: r)).map fun p => (.number p.1.1 p.1.2, p.2)

theorem begins_shape : Begins (Shape Inner) := by
  intro v t text
  cases text with
  | null | true | false | array _ | object _ => exact ⟨_, _, rfl, by decide, by decide, by decide⟩
  | number number =>
      obtain ⟨c, u, rfl, first⟩ := number.head
      refine ⟨c, u, rfl, ?_, first.ne (by decide) rfl, first.ne (by decide) rfl⟩
      simp only [isSpace, Bool.or_eq_false_iff, decide_eq_false_iff_not]
      exact ⟨⟨⟨first.ne (by decide) rfl, first.ne (by decide) rfl⟩, first.ne (by decide) rfl⟩,
        first.ne (by decide) rfl⟩
  | string quoted =>
      obtain ⟨chars⟩ := quoted
      exact ⟨'"', _, rfl, by decide, by decide, by decide⟩

theorem reads_shape (reads : Reads p Inner (Stops isNumberChar)) (begins : Begins Inner) :
    Reads (shape p) (Shape Inner) (Stops isNumberChar) where
  sound := by
    intro s r v read
    unfold shape at read
    split at read
    case h_1 => cases read
    case h_2 c s =>
        split at read
        · obtain ⟨t, eq, rfl, rfl⟩ := (reads_word _ _).sound read
          exact ⟨_, eq, .null⟩
        split at read
        · obtain ⟨t, eq, rfl, rfl⟩ := (reads_word _ _).sound read
          exact ⟨_, eq, .true⟩
        split at read
        · obtain ⟨t, eq, rfl, rfl⟩ := (reads_word _ _).sound read
          exact ⟨_, eq, .false⟩
        split at read
        · obtain ⟨q, isQuoted, same⟩ := Option.map_eq_some_iff.mp read
          cases same
          obtain ⟨t, eq, quoted⟩ := reads_quoted.sound isQuoted
          exact ⟨t, eq, .string quoted⟩
        split at read
        case isTrue bracket =>
            subst bracket
            obtain ⟨q, isArray, same⟩ := Option.map_eq_some_iff.mp read
            cases same
            obtain ⟨t, rfl, items⟩ := (reads.bracketed begins (.inl rfl)).sound isArray
            exact ⟨'[' :: t, rfl, .array items⟩
        split at read
        case isTrue brace =>
            subst brace
            obtain ⟨q, isObject, same⟩ := Option.map_eq_some_iff.mp read
            cases same
            obtain ⟨t, rfl, items⟩ :=
              ((reads.member begins).bracketed begins_member (.inr rfl)).sound isObject
            exact ⟨'{' :: t, rfl, .object items⟩
        case isFalse =>
            obtain ⟨q, isNumber, same⟩ := Option.map_eq_some_iff.mp read
            cases same
            obtain ⟨t, eq, number⟩ := reads_number.sound isNumber
            exact ⟨t, eq, .number number⟩
  complete := by
    intro t r v text stops
    cases text with
    | null | true | false =>
        simp only [List.cons_append, List.nil_append, shape, Char.reduceEq, if_false, if_true]
        exact (reads_word _ _).complete ⟨rfl, rfl⟩ trivial
    | number number =>
        have read := reads_number.complete (r := r) number stops
        obtain ⟨c, u, rfl, first⟩ := number.head
        rw [List.cons_append] at read ⊢
        rw [shape, if_neg (first.ne (by decide) rfl), if_neg (first.ne (by decide) rfl),
          if_neg (first.ne (by decide) rfl), if_neg (first.ne (by decide) rfl),
          if_neg (first.ne (by decide) rfl), if_neg (first.ne (by decide) rfl), read]
        rfl
    | string quoted =>
        have read := reads_quoted.complete (r := r) quoted trivial
        obtain ⟨chars⟩ := quoted
        simp only [List.cons_append] at read
        simp only [List.cons_append, shape, Char.reduceEq, if_false, if_true, read, Option.map_some]
    | array items =>
        have read := (reads.bracketed begins (.inl rfl)).complete (r := r) items trivial
        simp only [List.cons_append, shape, Char.reduceEq, if_false, if_true, read, Option.map_some]
    | object items =>
        have read := ((reads.member begins).bracketed begins_member (.inr rfl)).complete (r := r)
          items trivial
        simp only [List.cons_append, shape, Char.reduceEq, if_false, if_true, read, Option.map_some]

end Nesting

/-- A value nested less than `depth` deep. -/
def value : Nat → Parser Value
  | 0 => fun _ => none
  | depth + 1 => shape (value depth)

theorem begins_text (depth : Nat) : Begins (Text depth) := by
  cases depth with
  | zero => exact fun text => False.elim text
  | succ depth => exact begins_shape

theorem reads_value (depth : Nat) : Reads (value depth) (Text depth) (Stops isNumberChar) := by
  induction depth with
  | zero => exact ⟨fun read => (nomatch read), fun text _ => False.elim text⟩
  | succ depth ih => exact reads_shape ih (begins_text depth)

/-! ## Documents -/

section Nested

variable {Rule Rule' : α → List Char → Prop} {x : α} {xs : List α} {t : List Char}

theorem Padded.mono (text : Padded Rule x t)
    (within : ∀ y u, Rule y u → u.length ≤ t.length → Rule' y u) : Padded Rule' x t := by
  obtain ⟨before, item, behind⟩ := text
  refine .mk before (within _ _ item ?_) behind
  rw [List.length_append, List.length_append]
  omega

theorem Separated.mono (text : Separated Rule xs t)
    (within : ∀ y u, Rule y u → u.length ≤ t.length → Rule' y u) : Separated Rule' xs t := by
  induction text with
  | one item => exact .one (within _ _ item (Nat.le_refl _))
  | @cons x xs s t item items ih =>
      rw [List.length_append, List.length_cons] at within
      refine .cons (within _ _ item (by omega)) (ih fun y u rule short => ?_)
      exact within y u rule (by omega)

theorem Bracketed.mono {close : Char} (text : Bracketed Rule close xs t)
    (within : ∀ y u, Rule y u → u.length ≤ t.length → Rule' y u) : Bracketed Rule' close xs t := by
  cases text with
  | empty space => exact .empty space
  | @items _ s items =>
      rw [List.length_append] at within
      refine .items (items.mono fun y u padded short => padded.mono fun z v rule shorter => ?_)
      exact within z v rule (by omega)

end Nested

variable {v : Value} {s t : List Char}

theorem Shape.mono {Inner Inner' : Value → List Char → Prop} (text : Shape Inner v t)
    (within : ∀ w u, Inner w u → u.length < t.length → Inner' w u) : Shape Inner' v t := by
  cases text with
  | null => exact .null
  | true => exact .true
  | false => exact .false
  | number number => exact .number number
  | string quoted => exact .string quoted
  | array items =>
      refine .array (items.mono fun w u inner short => within w u inner ?_)
      rw [List.length_cons]
      omega
  | object items =>
      refine .object (items.mono fun m u isMember short => ?_)
      obtain ⟨key, before, behind, inner⟩ := isMember
      refine .mk key before behind (within _ _ inner ?_)
      simp only [List.length_append, List.length_cons] at short ⊢
      omega

/-- A value is not nested deeper than its text is long. -/
theorem text_of_length_le {depth bound : Nat} (text : Text depth v t) (long : t.length ≤ bound) :
    Text bound v t := by
  induction depth generalizing bound v t with
  | zero => exact False.elim text
  | succ depth ih =>
      obtain ⟨c, u, rfl, _⟩ := begins_text (depth + 1) text
      rw [List.length_cons] at long
      obtain ⟨bound, rfl⟩ := Nat.exists_eq_succ_of_ne_zero (show bound ≠ 0 by omega)
      refine Shape.mono text fun w u inner short => ih inner ?_
      rw [List.length_cons] at short
      omega

/-- The value that a text says, if it is one of JSON. -/
def parse (s : List Char) : Option Value :=
  match padded (value s.length) s with
  | some (v, []) => some v
  | _ => none

/-- **The parser reads the documents of the grammar and nothing else.** -/
theorem parse_eq_some : parse s = some v ↔ Document v s := by
  have reads := (reads_value s.length).padded (begins_text s.length)
  constructor
  · intro read
    unfold parse at read
    split at read
    case h_1 v whole =>
        cases read
        obtain ⟨t, rfl, text⟩ := reads.sound whole
        rw [List.append_nil] at text ⊢
        exact ⟨_, text⟩
    case h_2 => cases read
  · rintro ⟨depth, text⟩
    have text : Padded (Text s.length) v s := text.mono fun w u => text_of_length_le
    have whole := reads.complete text (Stops.nil _)
    rw [List.append_nil] at whole
    rw [parse, whole]

end Json
