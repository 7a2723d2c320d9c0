import Mathlib.Data.List.GetD
import OcScript.Proofs.Scan.Lookahead

/-
  This file scans a source character by character and proves
  that this finds the same tokens and errors.

  An index moves over the source, and a counter of lines
  goes up with it: where a newline is passed between two
  chunks, and where one is passed inside of a string.  No
  more is looked at than the next two characters.  Behind
  the end of the source there are none, and a null character
  is seen instead, which may stand in a source as well.

  Key definitions include:
    * `OcScript.Pass`
    * `OcScript.Pass.peek`
    * `OcScript.Pass.skipWhile`
    * `OcScript.Pass.skipString`
    * `OcScript.Pass.step`
    * `OcScript.Pass.run`
    * `OcScript.Pass.scanned`

  Key theorems include:
    * `OcScript.Pass.skipWhile_eq`
    * `OcScript.Pass.skipString_eq`
    * `OcScript.Pass.step_eq`
    * `OcScript.Pass.scanned_eq`
    * `OcScript.scan_eq_iff_munched`
-/

------------------------------------------------------------
-- Passes
------------------------------------------------------------

namespace OcScript

/-
  A source that is being scanned: the index at which the
  chunk under way starts, the index of the character to be
  read next, the line counted so far, and what was made of
  the chunks before.
-/
structure Pass where
  source : List Char
  first : Nat
  place : Nat
  line : Nat
  tokens : List Token
  errors : List ScanError

namespace Pass

/- A pass over a source of which nothing has been read. -/
def start
    (source : String) :
    Pass :=
  ⟨source.toList, 0, 0, 1, [], []⟩

/- What is seen where there is no character. -/
def nothing : Char :=
  '\x00'

/- All characters have been read. -/
def atEnd
    (p : Pass) :
    Bool :=
  p.source.length ≤ p.place

/- The character to be read next. -/
def peek
    (p : Pass) :
    Char :=
  p.source.getD p.place nothing

/- The character after the one to be read next. -/
def peekNext
    (p : Pass) :
    Char :=
  p.source.getD (p.place + 1) nothing

/- Move past a character. -/
def advance
    (p : Pass) :
    Pass :=
  { p with place := p.place + 1 }

/- Count one line more. -/
def countLine
    (p : Pass) :
    Pass :=
  { p with line := p.line + 1 }

/- Move past a certain character, if it is next. -/
def accept?
    (c : Char)
    (p : Pass) :
    Option Pass :=
  if p.atEnd = true ∨ p.peek ≠ c then
    none
  else
    some p.advance

/- The characters from one index up to another. -/
def between
    (p : Pass)
    (i j : Nat) :
    List Char :=
  (p.source.take j).drop i

/- Make a token of the characters since the first one. -/
def add
    (kind : TokenKind)
    (p : Pass) :
    Pass :=
  let lexeme := String.ofList (p.between p.first p.place)
  { p with tokens := p.tokens ++ [⟨kind, lexeme, p.line⟩] }

/- Report an error on the line counted so far. -/
def report
    (cause : ScanCause)
    (p : Pass) :
    Pass :=
  { p with errors := p.errors ++ [⟨p.line, cause⟩] }

------------------------------------------------------------
-- Runs of Characters
------------------------------------------------------------

/-
  What is seen behind the end is in none of the classes that
  runs are made of, so a run ends there at the latest.
-/
theorem place_lt_of_peek
    {inside : Char → Bool}
    (hNothing : inside nothing = false)
    {p : Pass}
    (hPeek : inside p.peek = true) :
    p.place < p.source.length := by
  by_contra hEnd
  rw [peek, List.getD_eq_default _ _ (Nat.le_of_not_lt hEnd),
    hNothing] at hPeek
  cases hPeek

/- Move past characters as long as they are in a class. -/
def skipWhile
    (inside : Char → Bool)
    (hNothing : inside nothing = false)
    (p : Pass) :
    Pass :=
  if _ : inside p.peek = true then
    skipWhile inside hNothing p.advance
  else
    p
termination_by p.source.length - p.place
decreasing_by
  rename_i hInside
  have hPlace := place_lt_of_peek hNothing hInside
  simp only [advance]
  omega

/- Move to the end of the line. -/
def skipLine
    (p : Pass) :
    Pass :=
  if _ : p.peek ≠ '\n' ∧ p.atEnd = false then
    skipLine p.advance
  else
    p
termination_by p.source.length - p.place
decreasing_by
  rename_i hMore
  have hPlace := of_decide_eq_false hMore.2
  simp only [advance]
  omega

/- Move to the next quote, and count the lines on the way. -/
def skipString
    (p : Pass) :
    Pass :=
  if _ : p.peek ≠ '"' ∧ p.atEnd = false then
    if p.peek = '\n' then
      skipString p.countLine.advance
    else
      skipString p.advance
  else
    p
termination_by p.source.length - p.place
decreasing_by
  all_goals
    rename_i hMore _
    have hPlace := of_decide_eq_false hMore.2
    simp only [advance, countLine]
    omega

------------------------------------------------------------
-- Single Chunks
------------------------------------------------------------

/- The symbols that no longer symbol starts with. -/
def single? : Char → Option Symbol
| '(' => some .leftParen
| ')' => some .rightParen
| '{' => some .leftBrace
| '}' => some .rightBrace
| ',' => some .comma
| '.' => some .dot
| '-' => some .minus
| '+' => some .plus
| ';' => some .semicolon
| '*' => some .star
| _ => none

/- The symbols that may be followed by an equals sign. -/
def withEqual? : Char → Option (Symbol × Symbol)
| '!' => some (.bang, .bangEqual)
| '=' => some (.equal, .equalEqual)
| '>' => some (.greater, .greaterEqual)
| '<' => some (.less, .lessEqual)
| _ => none

/- Read the rest of a symbol that may go on with a sign. -/
def shortOrLong
    (short long : Symbol)
    (p : Pass) :
    Pass :=
  match p.accept? '=' with
  | some p => p.add (.symbol long)
  | none => p.add (.symbol short)

/- Read a comment or a slash after its first slash. -/
def slash
    (p : Pass) :
    Pass :=
  match p.accept? '/' with
  | some p => p.skipLine
  | none => p.add (.symbol .slash)

/- Read a string after its opening quote. -/
def string
    (p : Pass) :
    Pass :=
  let p := p.skipString
  if p.atEnd then
    p.report .unterminatedString
  else
    let p := p.advance
    let content := p.between (p.first + 1) (p.place - 1)
    p.add (.string (String.ofList content))

theorem isDigit_nothing :
    nothing.isDigit = false := by
  decide

theorem isWordPart_nothing :
    Chunk.isWordPart nothing = false := by
  decide

/- Move past digits. -/
def skipDigits
    (p : Pass) :
    Pass :=
  p.skipWhile Char.isDigit isDigit_nothing

/- Move past the digits and decimals of a number. -/
def skipNumber
    (p : Pass) :
    Pass :=
  let p := p.skipDigits
  if p.peek = '.' ∧ p.peekNext.isDigit = true then
    p.advance.skipDigits
  else
    p

/- Read a number after its first digit. -/
def number
    (p : Pass) :
    Pass :=
  let p := p.skipNumber
  let lexeme := p.between p.first p.place
  p.add (.number (Decimal.ofText lexeme).toFloat)

/- Read a word after its first letter. -/
def word
    (table : KeywordTable)
    (p : Pass) :
    Pass :=
  let p := p.skipWhile Chunk.isWordPart isWordPart_nothing
  let lexeme := String.ofList (p.between p.first p.place)
  p.add (table.kindOf lexeme)

/- Read a chunk after its first character, which is `c`. -/
def read
    (table : KeywordTable)
    (c : Char)
    (p : Pass) :
    Pass :=
  match single? c, withEqual? c with
  | some symbol, _ => p.add (.symbol symbol)
  | none, some (short, long) => p.shortOrLong short long
  | none, none =>
      if c = '/' then
        p.slash
      else if c = ' ' ∨ c = '\r' ∨ c = '\t' then
        p
      else if c = '\n' then
        p.countLine
      else if c = '"' then
        p.string
      else if c.isDigit = true then
        p.number
      else if Chunk.isWordStart c = true then
        p.word table
      else
        p.report .unexpectedCharacter

/- A chunk starts with the character to be read next. -/
def opened
    (p : Pass) :
    Pass :=
  { p with first := p.place }

/- Read one chunk. -/
def step
    (table : KeywordTable)
    (p : Pass) :
    Pass :=
  p.opened.advance.read table p.peek

end Pass

end OcScript

------------------------------------------------------------
-- Closed Forms
------------------------------------------------------------

namespace OcScript

namespace Pass

/- The characters that have not been read. -/
def rest
    (p : Pass) :
    List Char :=
  p.source.drop p.place

/- The pass after a text, with the lines in it counted. -/
def after
    (text : List Char)
    (p : Pass) :
    Pass :=
  { p with
    place := p.place + text.length
    line := p.line + text.count '\n' }

variable {p : Pass} {c : Char} {more : List Char}

@[simp] theorem after_nil
    (p : Pass) :
    p.after [] = p :=
  rfl

theorem after_append
    (p : Pass)
    (text other : List Char) :
    p.after (text ++ other) = (p.after text).after other := by
  simp only [after, List.length_append, List.count_append,
    Nat.add_assoc]

theorem rest_after
    {text : List Char}
    (hRest : p.rest = text ++ more) :
    (p.after text).rest = more := by
  rw [rest, after, ← List.drop_drop, ← rest, hRest,
    List.drop_left]

theorem atEnd_eq_true_iff :
    p.atEnd = true ↔ p.rest = [] := by
  rw [atEnd, decide_eq_true_eq, rest,
    List.drop_eq_nil_iff]

theorem atEnd_of_cons
    (hRest : p.rest = c :: more) :
    p.atEnd = false := by
  rw [← Bool.not_eq_true, atEnd_eq_true_iff, hRest]
  exact List.cons_ne_nil c more

theorem getElem?_rest
    (p : Pass)
    (i : Nat) :
    p.rest[i]? = p.source[p.place + i]? :=
  List.getElem?_drop

theorem peek_of_cons
    (hRest : p.rest = c :: more) :
    p.peek = c := by
  have hFound := p.getElem?_rest 0
  rw [hRest] at hFound
  rw [peek, List.getD_eq_getElem?_getD, ← Nat.add_zero p.place,
    ← hFound]
  rfl

theorem peek_of_nil
    (hRest : p.rest = []) :
    p.peek = nothing := by
  have hFound := p.getElem?_rest 0
  rw [hRest] at hFound
  rw [peek, List.getD_eq_getElem?_getD, ← Nat.add_zero p.place,
    ← hFound]
  rfl

theorem peekNext_of_cons
    (hRest : p.rest = c :: more) :
    p.peekNext = more.headD nothing := by
  have hFound := p.getElem?_rest 1
  rw [hRest, List.getElem?_cons_succ] at hFound
  rw [peekNext, List.getD_eq_getElem?_getD, ← hFound]
  cases more <;> rfl

/- Any character but a newline is passed alone. -/
theorem advance_eq
    (hLine : c ≠ '\n') :
    p.advance = p.after [c] := by
  rw [advance, after, List.count_singleton,
    beq_false_of_ne hLine]
  rfl

theorem advance_countLine :
    p.countLine.advance = p.after ['\n'] :=
  rfl

/- A character is accepted where it comes next. -/
theorem accept?_of_cons
    (hLine : c ≠ '\n')
    (hRest : p.rest = c :: more) :
    p.accept? c = some (p.after [c]) := by
  rw [accept?, atEnd_of_cons hRest, peek_of_cons hRest,
    advance_eq hLine]
  simp

theorem accept?_of_not
    (hOther : p.rest.head? ≠ some c) :
    p.accept? c = none := by
  rw [accept?]
  apply if_pos
  cases hRest : p.rest with
  | nil =>
      exact .inl (atEnd_eq_true_iff.mpr hRest)
  | cons d more =>
      right
      rw [peek_of_cons hRest]
      rintro rfl
      rw [hRest] at hOther
      exact hOther rfl

/- A run of a class without newlines is passed as a whole. -/
theorem skipWhile_eq
    {inside : Char → Bool}
    (hNothing : inside nothing = false)
    (hLine : inside '\n' = false)
    (p : Pass) :
    p.skipWhile inside hNothing =
      p.after (p.rest.takeWhile inside) := by
  generalize hRest : p.rest = text
  induction text generalizing p with
  | nil =>
      rw [skipWhile, dif_neg]
      · rfl
      · rw [peek_of_nil hRest, hNothing]
        exact Bool.false_ne_true
  | cons c more ih =>
      rw [skipWhile]
      by_cases hInside : inside c = true
      · have hChar : c ≠ '\n' := by
          rintro rfl
          rw [hLine] at hInside
          cases hInside
        rw [dif_pos (by rwa [peek_of_cons hRest]),
          advance_eq hChar, ih _ (rest_after hRest),
          List.takeWhile_cons_of_pos hInside, ← after_append]
        rfl
      · rw [dif_neg (by rwa [peek_of_cons hRest]),
          List.takeWhile_cons_of_neg hInside]
        rfl

/- The rest of a line is passed without its newline. -/
theorem skipLine_eq
    (p : Pass) :
    p.skipLine = p.after (p.rest.takeWhile (· ≠ '\n')) := by
  generalize hRest : p.rest = text
  induction text generalizing p with
  | nil =>
      rw [skipLine, dif_neg]
      · rfl
      · rw [atEnd_eq_true_iff.mpr hRest]
        rintro ⟨-, hMore⟩
        cases hMore
  | cons c more ih =>
      rw [skipLine, peek_of_cons hRest, atEnd_of_cons hRest]
      by_cases hChar : c = '\n'
      · subst hChar
        simp
      · rw [dif_pos ⟨hChar, rfl⟩, advance_eq hChar,
          ih _ (rest_after hRest),
          List.takeWhile_cons, if_pos (decide_eq_true hChar),
          ← after_append]
        rfl

/- A string is passed with the newlines in it counted. -/
theorem skipString_eq
    (p : Pass) :
    p.skipString = p.after (p.rest.takeWhile (· ≠ '"')) := by
  generalize hRest : p.rest = text
  induction text generalizing p with
  | nil =>
      rw [skipString, dif_neg]
      · rfl
      · rw [atEnd_eq_true_iff.mpr hRest]
        rintro ⟨-, hMore⟩
        cases hMore
  | cons c more ih =>
      have hStep :
          (if c = '\n' then
              skipString p.countLine.advance
            else
              skipString p.advance) =
            skipString (p.after [c]) := by
        by_cases hChar : c = '\n'
        · subst hChar
          rw [if_pos rfl, advance_countLine]
        · rw [if_neg hChar, advance_eq hChar]
      rw [skipString, peek_of_cons hRest,
        atEnd_of_cons hRest, hStep]
      by_cases hChar : c = '"'
      · subst hChar
        simp
      · rw [dif_pos ⟨hChar, rfl⟩, ih _ (rest_after hRest),
          List.takeWhile_cons, if_pos (decide_eq_true hChar),
          ← after_append]
        rfl

theorem skipDigits_eq
    (p : Pass) :
    p.skipDigits = p.after (p.rest.takeWhile Char.isDigit) :=
  skipWhile_eq isDigit_nothing (by decide) p

/- A number is passed up to where its lexeme ends. -/
theorem skipNumber_eq
    (p : Pass) :
    p.skipNumber = p.after (Chunk.numberTail p.rest) := by
  have hWhole :
      (p.after (p.rest.takeWhile Char.isDigit)).rest =
        p.rest.dropWhile Char.isDigit :=
    rest_after List.takeWhile_append_dropWhile.symm
  unfold skipNumber Chunk.numberTail
  rw [skipDigits_eq]
  dsimp only
  cases hDrop : p.rest.dropWhile Char.isDigit with
  | nil =>
      rw [hDrop] at hWhole
      rw [peek_of_nil hWhole]
      exact if_neg fun hPoint => absurd hPoint.1 (by decide)
  | cons d back =>
      rw [hDrop] at hWhole
      rw [peek_of_cons hWhole, peekNext_of_cons hWhole]
      by_cases hPoint : d = '.'
      · subst hPoint
        cases back with
        | nil =>
            exact if_neg fun hBoth => absurd hBoth.2 (by decide)
        | cons e back =>
            by_cases hDigit : e.isDigit = true
            · rw [if_pos ⟨rfl, hDigit⟩, skipDigits_eq,
                advance_eq (by decide : '.' ≠ '\n'),
                rest_after hWhole]
              simp only [List.takeWhile_cons_of_pos hDigit,
                ← after_append, List.append_assoc,
                List.singleton_append]
            · rw [if_neg fun hBoth => hDigit hBoth.2]
              simp only [List.takeWhile_cons_of_neg hDigit]
      · rw [if_neg (fun hBoth => hPoint hBoth.1)]
        split
        · rename_i hCons
          cases hCons
          exact absurd rfl hPoint
        · rfl

end Pass

end OcScript

------------------------------------------------------------
-- Chunks Passed
------------------------------------------------------------

namespace OcScript

namespace Pass

variable {table : KeywordTable}

/- The pass after a chunk, with what was made of it. -/
def past
    (table : KeywordTable)
    (k : Chunk)
    (p : Pass) :
    Pass :=
  let p := p.opened.after k.text
  let l := ⟨p.line, k⟩
  { p with
    tokens := p.tokens ++ (Located.token? table l).toList
    errors := p.errors ++ (Located.error? l).toList }

/- A chunk that makes a token makes no error. -/
theorem error?_eq_none
    {k : Chunk}
    {kind : TokenKind}
    (hKind : Located.kind? table k = some kind)
    (line : Nat) :
    Located.error? ⟨line, k⟩ = none := by
  unfold Located.kind? at hKind
  unfold Located.error?
  cases hChunk : k.kind <;> simp_all

/- The characters that were passed lie between the places. -/
theorem between_after
    {p : Pass}
    {text more : List Char}
    (hRest : p.rest = text ++ more)
    (i : Nat) :
    (p.opened.after text).between (p.place + i)
        (p.place + text.length) =
      text.drop i := by
  rw [rest] at hRest
  have hText :
      (p.source.take (p.place + text.length)).drop p.place =
        text := by
    rw [List.drop_take, hRest, Nat.add_sub_cancel_left,
      List.take_left]
  rw [between, ← List.drop_drop]
  exact congrArg (List.drop i) hText

section

variable
    {p : Pass}
    {k : Chunk}
    {more : List Char}
    (hRest : p.rest = k.text ++ more)

include hRest

/- The characters of a chunk are those that were passed. -/
theorem lexeme_after :
    (p.opened.after k.text).between
        (p.opened.after k.text).first
        (p.opened.after k.text).place =
      k.text :=
  between_after hRest 0

/- A chunk that is passed and made a token of. -/
theorem add_after
    {kind : TokenKind}
    (hKind : Located.kind? table k = some kind) :
    (p.opened.after k.text).add kind = p.past table k := by
  rw [add, lexeme_after hRest, past, Located.token?, hKind,
    error?_eq_none hKind, Option.map_some,
    Option.toList_some, Option.toList_none, List.append_nil]

omit hRest in
/- A chunk that is passed and made nothing of. -/
theorem after_of_nothing
    (hKind : k.kind = .blank ∨ k.kind = .comment) :
    p.opened.after k.text = p.past table k := by
  rcases k with ⟨kind, head, tail⟩
  rcases hKind with rfl | rfl
  · simp [past, Located.token?, Located.error?,
      Located.kind?]
  · simp [past, Located.token?, Located.error?,
      Located.kind?]

omit hRest in
/- A chunk that is passed and reported. -/
theorem report_after
    {cause : ScanCause}
    (hKind : Located.kind? table k = none)
    (hCause :
      ∀ line,
        Located.error? ⟨line, k⟩ = some ⟨line, cause⟩) :
    (p.opened.after k.text).report cause =
      p.past table k := by
  simp [past, report, Located.token?, hKind, hCause]

end

end Pass

end OcScript

------------------------------------------------------------
-- One Chunk Read
------------------------------------------------------------

namespace OcScript

namespace Pass

variable
    {table : KeywordTable}
    {p : Pass}
    {c : Char}
    {more : List Char}

/- Symbols that no longer one starts with stand alone. -/
theorem first_of_single?
    {s : Symbol}
    (hSingle : single? c = some s)
    (more : List Char) :
    Chunk.first c more = ⟨.symbol s, c, []⟩ := by
  unfold single? at hSingle
  split at hSingle <;> cases hSingle <;> rfl

/- Of two symbols, the longer one is taken if it is there. -/
theorem first_of_withEqual?
    {short long : Symbol}
    (hPair : withEqual? c = some (short, long))
    (more : List Char) :
    Chunk.first c more =
      if more.head? = some '=' then
        ⟨.symbol long, c, ['=']⟩
      else
        ⟨.symbol short, c, []⟩ := by
  have hSpelling :
      short.spelling = [c] ∧ long.spelling = [c, '='] := by
    unfold withEqual? at hPair
    split at hPair <;> cases hPair <;> exact ⟨rfl, rfl⟩
  have hOther : c ≠ '/' := by
    rintro rfl
    cases hPair
  split
  · rename_i hEqual
    rcases List.head?_eq_some_iff.mp hEqual with ⟨after, rfl⟩
    exact Chunk.first_of_twoCharacters hSpelling.2 after
  · rename_i hEqual
    apply Chunk.first_of_oneCharacter hSpelling.1
    · intro other d hLonger
      have hSign : d = '=' := by
        cases other <;> cases hLonger <;> rfl
      rwa [hSign]
    · exact (absurd · hOther)

/- The first characters of the symbols are told apart. -/
theorem starts_of_spelling
    {s : Symbol}
    (hSpelling : s.spelling = c :: more) :
    single? c ≠ none ∨ withEqual? c ≠ none ∨ c = '/' := by
  cases s <;> cases hSpelling <;> decide

/- Without a class, a comment, or a symbol, it is stray. -/
theorem first_of_stray
    (hSingle : single? c = none)
    (hPair : withEqual? c = none)
    (hSlash : c ≠ '/')
    (hBlank : ¬ Chunk.isBlank c = true)
    (hQuote : c ≠ '"')
    (hDigit : ¬ c.isDigit = true)
    (hLetter : ¬ Chunk.isWordStart c = true)
    (more : List Char) :
    Chunk.first c more = ⟨.stray, c, []⟩ := by
  have hComment :
      ¬ ['/', '/'].isPrefixOf (c :: more) = true := by
    rw [List.isPrefixOf_iff_prefix, List.cons_prefix_cons]
    exact fun hPrefix => hSlash hPrefix.1.symm
  have hSymbol : Symbol.startOf? (c :: more) = none := by
    unfold Symbol.startOf?
    rw [List.find?_eq_none]
    intro s _ hPrefix
    rw [List.isPrefixOf_iff_prefix] at hPrefix
    rcases starts_of_spelling
        (Symbol.spelling_eq_cons hPrefix) with
      hStart | hStart | hStart
    · exact hStart hSingle
    · exact hStart hPair
    · exact hSlash hStart
  rw [Chunk.first_of_no_class hBlank hQuote hDigit hLetter
    hComment, hSymbol]

section

variable (hRest : p.rest = c :: more)

include hRest

/- The rest after the first character of a chunk. -/
theorem rest_after_first :
    (p.opened.after [c]).rest = more :=
  rest_after hRest

/- The first chunk of the rest is what the rest starts with. -/
theorem rest_eq_first :
    ∃ back, p.rest = (Chunk.first c more).text ++ back :=
  ⟨_, hRest.trans (Chunk.text_first_append_drop c more).symm⟩

theorem add_single
    {s : Symbol}
    (hSingle : single? c = some s) :
    (p.opened.after [c]).add (.symbol s) =
      p.past table (Chunk.first c more) := by
  have hFirst := first_of_single? hSingle more
  rcases rest_eq_first hRest with ⟨back, hBack⟩
  rw [hFirst] at hBack ⊢
  exact add_after hBack rfl

theorem shortOrLong_eq
    {short long : Symbol}
    (hPair : withEqual? c = some (short, long)) :
    (p.opened.after [c]).shortOrLong short long =
      p.past table (Chunk.first c more) := by
  have hFirst := first_of_withEqual? hPair more
  rcases rest_eq_first hRest with ⟨back, hBack⟩
  unfold shortOrLong
  by_cases hEqual : more.head? = some '='
  · rcases List.head?_eq_some_iff.mp hEqual with ⟨after, rfl⟩
    rw [if_pos hEqual] at hFirst
    rw [accept?_of_cons (by decide) (rest_after_first hRest)]
    rw [hFirst] at hBack ⊢
    exact add_after hBack rfl
  · rw [if_neg hEqual] at hFirst
    rw [accept?_of_not (by rwa [rest_after_first hRest])]
    rw [hFirst] at hBack ⊢
    exact add_after hBack rfl

theorem slash_eq
    (hSlash : c = '/') :
    (p.opened.after [c]).slash =
      p.past table (Chunk.first c more) := by
  subst hSlash
  rcases rest_eq_first hRest with ⟨back, hBack⟩
  have hRestAfter := rest_after_first hRest
  unfold slash
  by_cases hComment : more.head? = some '/'
  · rcases List.head?_eq_some_iff.mp hComment with
      ⟨after, rfl⟩
    have hFirst :
        Chunk.first '/' ('/' :: after) =
          ⟨.comment, '/',
            '/' :: after.takeWhile (· ≠ '\n')⟩ :=
      Chunk.first_of_comment rfl
    rw [accept?_of_cons (by decide) hRestAfter]
    dsimp only
    rw [skipLine_eq, rest_after hRestAfter, hFirst,
      ← after_append, ← after_append]
    exact after_of_nothing (k := ⟨.comment, _, _⟩) (.inr rfl)
  · have hFirst :
        Chunk.first '/' more = ⟨.symbol .slash, '/', []⟩ := by
      apply Chunk.first_of_oneCharacter rfl
      · intro long d hLonger
        cases long <;> cases hLonger
      · exact fun _ => hComment
    rw [accept?_of_not (by rwa [hRestAfter])]
    rw [hFirst] at hBack ⊢
    exact add_after hBack rfl

omit hRest in
theorem opened_eq_of_blank
    (hBlank : Chunk.isBlank c = true) :
    p.opened.after [c] = p.past table (Chunk.first c more) := by
  rw [Chunk.first_of_isBlank hBlank]
  exact after_of_nothing (k := ⟨.blank, c, []⟩) (.inl rfl)

omit hRest in
/- The quotes are left out of the content of a string. -/
theorem content_after
    {content back : List Char}
    (hString : p.rest = '"' :: (content ++ '"' :: back)) :
    (p.opened.after ('"' :: (content ++ ['"']))).between
        ((p.opened.after
          ('"' :: (content ++ ['"']))).first + 1)
        ((p.opened.after
          ('"' :: (content ++ ['"']))).place - 1) =
      content := by
  have hIndex :
      (p.opened.after ('"' :: (content ++ ['"']))).place - 1 =
        p.place + ('"' :: content).length := by
    simp only [opened, after, List.length_cons,
      List.length_append, List.length_nil]
    omega
  have hText : p.rest = '"' :: content ++ '"' :: back :=
    hString
  rw [hIndex]
  exact between_after hText 1

/- A string that is closed is passed up to its last quote. -/
theorem string_of_closed
    {content back : List Char}
    (hContent : '"' ∉ content)
    (hMore : more = content ++ '"' :: back)
    (hQuote : c = '"') :
    (p.opened.after [c]).string =
      p.past table (Chunk.first c more) := by
  subst hQuote hMore
  have hText : p.rest = '"' :: (content ++ ['"']) ++ back := by
    rw [hRest]
    simp
  have hInside :
      (content ++ '"' :: back).takeWhile (· ≠ '"') =
        content := by
    rw [Chunk.takeWhile_append_eq_self_iff]
    exact ⟨Chunk.forall_ne_of_not_mem hContent, rfl⟩
  have hPassed :
      (p.opened.after ['"']).skipString =
        p.opened.after ('"' :: content) := by
    rw [skipString_eq, rest_after_first hRest, hInside,
      ← after_append]
    rfl
  have hClose :
      (p.opened.after ('"' :: content)).rest = '"' :: back :=
    rest_after hRest
  have hLast :
      (p.opened.after ('"' :: content)).advance =
        p.opened.after ('"' :: (content ++ ['"'])) := by
    rw [advance_eq (by decide : '"' ≠ '\n'), ← after_append]
    rfl
  have hAdd : _ = p.past table _ :=
    add_after (k := ⟨.string, '"', content ++ ['"']⟩) hText
      rfl
  rw [List.dropLast_concat] at hAdd
  rw [Chunk.first_quote, Chunk.quoted_append_quote hContent]
  simp only [string, hPassed, atEnd_of_cons hClose, hLast,
    Bool.false_eq_true, if_false]
  rw [content_after hRest]
  exact hAdd

/- A string that is not closed is passed up to the end. -/
theorem string_of_unclosed
    (hOpen : '"' ∉ more)
    (hQuote : c = '"') :
    (p.opened.after [c]).string =
      p.past table (Chunk.first c more) := by
  subst hQuote
  have hAll := Chunk.forall_ne_of_not_mem hOpen
  have hInside : more.takeWhile (· ≠ '"') = more :=
    List.takeWhile_eq_self_iff.mpr hAll
  have hQuoted :
      Chunk.quoted more = ⟨.unclosed, '"', more⟩ := by
    unfold Chunk.quoted
    rw [hInside, List.dropWhile_eq_nil_iff.mpr hAll]
  have hPassed :
      (p.opened.after ['"']).skipString =
        p.opened.after ('"' :: more) := by
    rw [skipString_eq, rest_after_first hRest, hInside,
      ← after_append]
    rfl
  have hEnd : (p.opened.after ('"' :: more)).rest = [] := by
    apply rest_after
    rw [List.append_nil]
    exact hRest
  rw [Chunk.first_quote, hQuoted]
  simp only [string, hPassed, atEnd_eq_true_iff.mpr hEnd,
    if_true]
  exact
    report_after (k := ⟨.unclosed, '"', more⟩) rfl
      fun _ => rfl

theorem string_eq
    (hQuote : c = '"') :
    (p.opened.after [c]).string =
      p.past table (Chunk.first c more) := by
  by_cases hClosed : '"' ∈ more
  · rcases List.eq_append_cons_of_mem hClosed with
      ⟨content, back, hMore, hContent⟩
    exact string_of_closed hRest hContent hMore hQuote
  · exact string_of_unclosed hRest hClosed hQuote

theorem number_eq
    (hDigit : c.isDigit = true) :
    (p.opened.after [c]).number =
      p.past table (Chunk.first c more) := by
  rcases rest_eq_first hRest with ⟨back, hBack⟩
  rw [Chunk.first_of_isDigit hDigit] at hBack ⊢
  have hPassed :
      (p.opened.after [c]).skipNumber =
        p.opened.after (c :: Chunk.numberTail more) := by
    rw [skipNumber_eq, rest_after_first hRest,
      ← after_append]
    rfl
  have hText := lexeme_after hBack
  have hAdd : _ = p.past table _ := add_after hBack rfl
  rw [number, hPassed]
  dsimp only [Chunk.text] at hText hAdd ⊢
  rw [hText, hAdd]

theorem word_eq
    (hLetter : Chunk.isWordStart c = true) :
    (p.opened.after [c]).word table =
      p.past table (Chunk.first c more) := by
  have hLine : Chunk.isWordPart '\n' = false := by
    decide
  rcases rest_eq_first hRest with ⟨back, hBack⟩
  rw [Chunk.first_of_isWordStart hLetter] at hBack ⊢
  have hPassed :
      (p.opened.after [c]).skipWhile Chunk.isWordPart
          isWordPart_nothing =
        p.opened.after
          (c :: more.takeWhile Chunk.isWordPart) := by
    rw [skipWhile_eq isWordPart_nothing hLine,
      rest_after_first hRest, ← after_append]
    rfl
  have hText := lexeme_after hBack
  have hAdd : _ = p.past table _ := add_after hBack rfl
  rw [word, hPassed]
  dsimp only [Chunk.text] at hText hAdd ⊢
  rw [hText, hAdd]

/- One step passes the first chunk of the rest. -/
theorem step_eq :
    p.step table = p.past table (Chunk.first c more) := by
  rw [step, peek_of_cons hRest]
  by_cases hNewline : c = '\n'
  · subst hNewline
    exact opened_eq_of_blank (c := '\n') rfl
  rw [advance_eq hNewline]
  unfold read
  cases hSingle : single? c with
  | some s =>
      exact add_single hRest hSingle
  | none =>
      cases hPair : withEqual? c with
      | some pair =>
          exact shortOrLong_eq hRest hPair
      | none =>
          dsimp only
          by_cases hSlash : c = '/'
          · rw [if_pos hSlash]
            exact slash_eq hRest hSlash
          rw [if_neg hSlash]
          by_cases hSpace : c = ' ' ∨ c = '\r' ∨ c = '\t'
          · rw [if_pos hSpace]
            apply opened_eq_of_blank
            apply decide_eq_true
            rcases hSpace with rfl | rfl | rfl <;> simp
          rw [if_neg hSpace, if_neg hNewline]
          by_cases hQuote : c = '"'
          · rw [if_pos hQuote]
            exact string_eq hRest hQuote
          rw [if_neg hQuote]
          by_cases hDigit : c.isDigit = true
          · rw [if_pos hDigit]
            exact number_eq hRest hDigit
          rw [if_neg hDigit]
          by_cases hLetter : Chunk.isWordStart c = true
          · rw [if_pos hLetter]
            exact word_eq hRest hLetter
          rw [if_neg hLetter]
          have hBlank : ¬ Chunk.isBlank c = true := by
            rw [Chunk.isBlank, decide_eq_true_eq]
            grind
          rw [first_of_stray hSingle hPair hSlash hBlank
            hQuote hDigit hLetter]
          exact
            report_after (k := ⟨.stray, c, []⟩) rfl
              fun _ => rfl

end

end Pass

end OcScript

------------------------------------------------------------
-- Whole Sources
------------------------------------------------------------

namespace OcScript

namespace Pass

variable {table : KeywordTable} {p : Pass}

@[simp] theorem place_past
    (table : KeywordTable)
    (k : Chunk)
    (p : Pass) :
    (p.past table k).place = p.place + k.text.length :=
  rfl

/- Before the end, there is a character to be read next. -/
theorem exists_rest_of_not_atEnd
    (hMore : ¬ p.atEnd = true) :
    ∃ c more, p.rest = c :: more := by
  rw [atEnd_eq_true_iff] at hMore
  exact List.exists_cons_of_ne_nil hMore

theorem place_lt_length
    (hMore : ¬ p.atEnd = true) :
    p.place < p.source.length := by
  simpa [atEnd] using hMore

/- Read chunks until all characters have been read. -/
def run
    (table : KeywordTable)
    (p : Pass) :
    Pass :=
  if _ : p.atEnd = true then
    p
  else
    run table (p.step table)
termination_by p.source.length - p.place
decreasing_by
  rename_i hMore
  have hPlace := place_lt_length hMore
  rcases exists_rest_of_not_atEnd hMore with ⟨c, more, hRest⟩
  rw [step_eq hRest]
  have hSource :
      (p.past table (Chunk.first c more)).source = p.source :=
    rfl
  simp only [hSource, place_past, Chunk.text,
    List.length_cons]
  omega

/- The tokens and the errors of a source passed over. -/
def scanned
    (table : KeywordTable)
    (source : String) :
    Scanned :=
  let p := (start source).run table
  ⟨p.tokens ++ [Token.atEnd p.line], p.errors⟩

/- After the first chunk, there is what it leaves. -/
theorem rest_past
    {c : Char}
    {more : List Char}
    (hRest : p.rest = c :: more) :
    (p.past table (Chunk.first c more)).rest =
      more.drop (Chunk.first c more).tail.length :=
  rest_after (p := p.opened)
    (hRest.trans (Chunk.text_first_append_drop c more).symm)

/- A run makes what the chunks of the rest make. -/
theorem run_eq
    (table : KeywordTable)
    (p : Pass) :
    (p.run table).tokens =
        p.tokens ++
          (Located.ofChunks p.line
            (Chunk.ofText p.rest)).filterMap
              (Located.token? table) ∧
      (p.run table).errors =
        p.errors ++
          (Located.ofChunks p.line
            (Chunk.ofText p.rest)).filterMap
              Located.error? ∧
      (p.run table).line = p.line + p.rest.count '\n' := by
  fun_induction run table p with
  | case1 p hEnd =>
      rw [atEnd_eq_true_iff.mp hEnd, Chunk.ofText]
      simp [Located.ofChunks]
  | case2 p hMore ih =>
      rcases exists_rest_of_not_atEnd hMore with
        ⟨c, more, hRest⟩
      have hCount :=
        congrArg (List.count '\n')
          (Chunk.text_first_append_drop c more)
      rw [List.count_append] at hCount
      rw [step_eq hRest, rest_past hRest] at ih
      rcases ih with ⟨hTokens, hErrors, hLine⟩
      rw [step_eq hRest, hTokens, hErrors, hLine, hRest,
        Chunk.ofText, Located.ofChunks,
        Chunk.filterMap_cons_append,
        Chunk.filterMap_cons_append, ← hCount,
        ← List.append_assoc, ← List.append_assoc,
        ← Nat.add_assoc]
      exact ⟨rfl, rfl, rfl⟩

/-
  A source passed over character by character has the tokens
  and the errors of its scan.
-/
theorem scanned_eq
    (table : KeywordTable)
    (source : String) :
    scanned table source = scan table source := by
  rcases run_eq table (start source) with
    ⟨hTokens, hErrors, hLine⟩
  rw [scanned, hTokens, hErrors, hLine]
  rfl

end Pass

end OcScript

------------------------------------------------------------
-- Scanning Is Maximal Munch
------------------------------------------------------------

namespace OcScript

/-
  The scanner is the maximal-munch lexer of the grammar.  A
  source has these tokens and errors just if it is made up
  of chunks, each the longest lexeme that the rest of the
  source starts with, which are listed as them; and passing
  over it character by character finds the same ones.
-/
theorem scan_eq_iff_munched
    (table : KeywordTable)
    (source : String)
    (scanned : Scanned) :
    Pass.scanned table source = scan table source ∧
      (scan table source = scanned ↔
        ∃ chunks,
          chunks.flatMap Chunk.text = source.toList ∧
            Chunk.Munched source.toList chunks ∧
            Chunk.Listed table 1 chunks scanned.tokens
              scanned.errors) := by
  refine ⟨Pass.scanned_eq table source, ?_, ?_⟩
  · rintro rfl
    exact scan_munches table source
  · rintro ⟨chunks, hText, hMunched, hListed⟩
    exact scan_eq_of_munched hText hMunched hListed

end OcScript
