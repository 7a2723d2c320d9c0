import Mathlib.Data.List.TakeWhile
import OcScript.Scan

/-
  This file proves that scanning is maximal munch: it cuts
  a source into the longest lexemes of a lexical grammar and
  loses nothing.

  The grammar says which texts are lexemes, and of which
  kind, without a word on how they are found.  A text is
  munched if every chunk is the longest lexeme that what is
  left starts with.  There is one way to munch a text, and
  it is the one the scanner takes; every chunk is then
  listed as one token, as one error, or as nothing.

  Key definitions include:
    * `OcScript.Lexeme`
    * `OcScript.Chunk.Munches`
    * `OcScript.Chunk.Munched`
    * `OcScript.Chunk.Denotes`
    * `OcScript.Chunk.Listed`

  Key theorems include:
    * `OcScript.Chunk.first_cases`
    * `OcScript.Chunk.length_le_of_lexeme`
    * `OcScript.Chunk.munched_iff`
    * `OcScript.Chunk.listed_ofChunks`
    * `OcScript.scan_munches`
    * `OcScript.scan_eq_of_munched`
-/

------------------------------------------------------------
-- The Lexical Grammar
------------------------------------------------------------

namespace OcScript

namespace Lexeme

/- The digits of a number. -/
def IsDigit
    (c : Char) :
    Prop :=
  '0' ≤ c ∧ c ≤ '9'

/- The letters of a word, the underscore among them. -/
def IsLetter
    (c : Char) :
    Prop :=
  'A' ≤ c ∧ c ≤ 'Z' ∨ 'a' ≤ c ∧ c ≤ 'z' ∨ c = '_'

instance decidableIsDigit
    (c : Char) :
    Decidable (IsDigit c) :=
  inferInstanceAs (Decidable (_ ∧ _))

instance decidableIsLetter
    (c : Char) :
    Decidable (IsLetter c) :=
  inferInstanceAs (Decidable (_ ∧ _ ∨ _ ∧ _ ∨ _))

end Lexeme

open Lexeme (IsDigit IsLetter)

/-
  The lexemes of every kind.  No text is a lexeme of the
  kinds that stand for faults.
-/
inductive Lexeme : ChunkKind → List Char → Prop where
| blank
    {c : Char}
    (hBlank : c = ' ' ∨ c = '\t' ∨ c = '\r' ∨ c = '\n') :
    Lexeme .blank [c]
| comment
    {body : List Char}
    (hLine : '\n' ∉ body) :
    Lexeme .comment ('/' :: '/' :: body)
| symbol
    (s : Symbol) :
    Lexeme (.symbol s) s.spelling
| string
    {content : List Char}
    (hContent : '"' ∉ content) :
    Lexeme .string ('"' :: (content ++ ['"']))
| whole
    {c : Char}
    {digits : List Char}
    (hFirst : IsDigit c)
    (hDigits : ∀ d ∈ digits, IsDigit d) :
    Lexeme .number (c :: digits)
| fraction
    {c d : Char}
    {digits decimals : List Char}
    (hFirst : IsDigit c)
    (hDigits : ∀ d ∈ digits, IsDigit d)
    (hPoint : IsDigit d)
    (hDecimals : ∀ d ∈ decimals, IsDigit d) :
    Lexeme .number (c :: (digits ++ '.' :: d :: decimals))
| word
    {c : Char}
    {rest : List Char}
    (hFirst : IsLetter c)
    (hRest : ∀ d ∈ rest, IsLetter d ∨ IsDigit d) :
    Lexeme .word (c :: rest)

namespace Lexeme

/- The scanner knows the digits. -/
theorem isDigit_iff
    (c : Char) :
    c.isDigit = true ↔ IsDigit c := by
  simp only [Char.isDigit, IsDigit, Char.le_def, ge_iff_le,
    Bool.and_eq_true, decide_eq_true_eq]

/- The scanner knows the letters. -/
theorem isWordStart_iff
    (c : Char) :
    Chunk.isWordStart c = true ↔ IsLetter c := by
  delta Chunk.isWordStart Char.isAlpha Char.isUpper
    Char.isLower
  simp only [IsLetter, Char.le_def, ge_iff_le,
    Bool.and_eq_true, Bool.or_eq_true, decide_eq_true_eq,
    or_assoc]

theorem isWordPart_iff
    (c : Char) :
    Chunk.isWordPart c = true ↔ IsLetter c ∨ IsDigit c := by
  simp only [Chunk.isWordPart, isWordStart_iff, isDigit_iff,
    decide_eq_true_eq]

end Lexeme

end OcScript

------------------------------------------------------------
-- The First Chunk by Its First Character
------------------------------------------------------------

namespace OcScript

namespace Symbol

/- Symbols have one character or two. -/
theorem spelling_cases
    (s : Symbol) :
    (∃ c, s.spelling = [c]) ∨
      ∃ c d, s.spelling = [c, d] := by
  cases s <;> simp [spelling]

/- The spelling of a symbol starts as the text does. -/
theorem spelling_eq_cons
    {s : Symbol}
    {c : Char}
    {rest : List Char}
    (hPrefix : s.spelling <+: c :: rest) :
    s.spelling = c :: s.spelling.tail := by
  rcases s.spelling_cases with
    ⟨d, hSpelling⟩ | ⟨d, e, hSpelling⟩
  · rw [hSpelling, List.cons_prefix_cons] at hPrefix
    rw [hSpelling, hPrefix.1]
    rfl
  · rw [hSpelling, List.cons_prefix_cons] at hPrefix
    rw [hSpelling, hPrefix.1]
    rfl

/- If no longer symbol starts here, the next does not count. -/
theorem startOf?_of_no_longer
    {c : Char}
    {rest : List Char}
    (hLonger :
      ∀ (long : Symbol) (d : Char),
        long.spelling = [c, d] → rest.head? ≠ some d) :
    startOf? (c :: rest) = startOf? [c] := by
  unfold startOf?
  congr 1
  funext s
  rw [Bool.eq_iff_iff, List.isPrefixOf_iff_prefix,
    List.isPrefixOf_iff_prefix]
  rcases s.spelling_cases with
    ⟨d, hSpelling⟩ | ⟨d, e, hSpelling⟩
  · simp only [hSpelling, List.cons_prefix_cons,
      List.nil_prefix]
  · rw [hSpelling, List.cons_prefix_cons,
      List.cons_prefix_cons]
    refine and_congr_right ?_
    rintro rfl
    refine iff_of_false ?_ ?_
    · rintro ⟨after, rfl⟩
      exact hLonger s e hSpelling rfl
    · simp

end Symbol

namespace Chunk

variable {c : Char}

/- Blanks are in no class that none of them is in. -/
theorem isBlank_eq_false
    {p : Char → Bool}
    (hIn : p c = true)
    (hOut :
      p ' ' = false ∧ p '\t' = false ∧
        p '\r' = false ∧ p '\n' = false) :
    isBlank c = false := by
  by_contra hBlank
  rw [Bool.not_eq_false, isBlank, decide_eq_true_eq]
    at hBlank
  rcases hOut with ⟨hSpace, hTab, hReturn, hNewline⟩
  rcases hBlank with rfl | rfl | rfl | rfl
  · exact absurd hIn (Bool.eq_false_iff.mp hSpace)
  · exact absurd hIn (Bool.eq_false_iff.mp hTab)
  · exact absurd hIn (Bool.eq_false_iff.mp hReturn)
  · exact absurd hIn (Bool.eq_false_iff.mp hNewline)

theorem isDigit_eq_false_of_isWordStart
    (hLetter : isWordStart c = true) :
    c.isDigit = false := by
  by_contra hDigit
  rw [Bool.not_eq_false, Lexeme.isDigit_iff] at hDigit
  rw [Lexeme.isWordStart_iff] at hLetter
  simp only [Lexeme.IsDigit, Lexeme.IsLetter, Char.le_def,
    UInt32.le_iff_toNat_le] at hDigit hLetter
  rcases hLetter with hUpper | hLower | rfl
  · have hBetween : '9'.val.toNat < 'A'.val.toNat := by
      decide
    omega
  · have hBetween : '9'.val.toNat < 'a'.val.toNat := by
      decide
    omega
  · revert hDigit
    decide

theorem first_of_isBlank
    (hBlank : isBlank c = true)
    (rest : List Char) :
    first c rest = ⟨.blank, c, []⟩ :=
  if_pos hBlank

theorem first_quote
    (rest : List Char) :
    first '"' rest = quoted rest :=
  rfl

theorem first_of_isDigit
    (hDigit : c.isDigit = true)
    (rest : List Char) :
    first c rest = ⟨.number, c, numberTail rest⟩ := by
  have hBlank := isBlank_eq_false hDigit (by decide)
  have hQuote : c ≠ '"' := by
    rintro rfl
    cases hDigit
  simp only [first, hBlank, hQuote, hDigit, if_true, if_false,
    Bool.false_eq_true]

theorem first_of_isWordStart
    (hLetter : isWordStart c = true)
    (rest : List Char) :
    first c rest =
      ⟨.word, c, rest.takeWhile isWordPart⟩ := by
  have hBlank := isBlank_eq_false hLetter (by decide)
  have hDigit := isDigit_eq_false_of_isWordStart hLetter
  have hQuote : c ≠ '"' := by
    rintro rfl
    cases hLetter
  simp only [first, hBlank, hQuote, hDigit, hLetter, if_true,
    if_false, Bool.false_eq_true]

/- Outside of all classes, there is a symbol or nothing. -/
theorem first_of_no_class
    {rest : List Char}
    (hBlank : ¬ isBlank c = true)
    (hQuote : c ≠ '"')
    (hDigit : ¬ c.isDigit = true)
    (hLetter : ¬ isWordStart c = true)
    (hComment : ¬ ['/', '/'].isPrefixOf (c :: rest) = true) :
    first c rest =
      match Symbol.startOf? (c :: rest) with
      | some symbol =>
          ⟨.symbol symbol, c, symbol.spelling.tail⟩
      | none => ⟨.stray, c, []⟩ := by
  rw [first, if_neg hBlank, if_neg hQuote, if_neg hDigit,
    if_neg hLetter]
  exact if_neg hComment

/- A symbol of two characters is found as a whole. -/
theorem first_of_twoCharacters
    {s : Symbol}
    {d : Char}
    (hSpelling : s.spelling = [c, d])
    (rest : List Char) :
    first c (d :: rest) = ⟨.symbol s, c, [d]⟩ := by
  cases s <;> cases hSpelling <;> rfl

/- A symbol of one character is found if none goes on. -/
theorem first_of_oneCharacter
    {s : Symbol}
    (hSpelling : s.spelling = [c])
    {rest : List Char}
    (hLonger :
      ∀ (long : Symbol) (d : Char),
        long.spelling = [c, d] → rest.head? ≠ some d)
    (hSlash : c = '/' → rest.head? ≠ some '/') :
    first c rest = ⟨.symbol s, c, []⟩ := by
  have hClass :
      isBlank c = false ∧ c ≠ '"' ∧
        c.isDigit = false ∧ isWordStart c = false := by
    cases s <;> cases hSpelling <;> decide
  have hComment :
      ¬ ['/', '/'].isPrefixOf (c :: rest) = true := by
    rw [List.isPrefixOf_iff_prefix, List.cons_prefix_cons]
    rintro ⟨hFirst, after, rfl⟩
    exact hSlash hFirst.symm rfl
  have hFound : Symbol.startOf? (c :: rest) = some s := by
    rw [Symbol.startOf?_of_no_longer hLonger]
    cases s <;> cases hSpelling <;> rfl
  rw [first_of_no_class (Bool.eq_false_iff.mp hClass.1)
    hClass.2.1 (Bool.eq_false_iff.mp hClass.2.2.1)
    (Bool.eq_false_iff.mp hClass.2.2.2) hComment, hFound]
  dsimp only
  rw [hSpelling, List.tail_cons]

end Chunk

end OcScript

------------------------------------------------------------
-- The First Chunk Is a Lexeme
------------------------------------------------------------

namespace OcScript

namespace Chunk

open Lexeme (isDigit_iff isWordStart_iff isWordPart_iff)

variable {c : Char}

/- What is left after a run starts outside of its class. -/
theorem not_of_dropWhile_eq_cons
    {p : Char → Bool}
    {text rest : List Char}
    (hDrop : text.dropWhile p = c :: rest) :
    p c = false := by
  have hHead :=
    List.head_dropWhile_not p (l := text) (by simp [hDrop])
  simpa only [hDrop, List.head_cons] using hHead

/- A digit and the number tail after it are a number. -/
theorem lexeme_numberTail
    (hDigit : c.isDigit = true)
    (rest : List Char) :
    Lexeme .number (c :: numberTail rest) := by
  have hFirst := (isDigit_iff c).mp hDigit
  have hRun :
      ∀ text : List Char,
        ∀ d ∈ text.takeWhile Char.isDigit,
          Lexeme.IsDigit d := by
    intro text d hMem
    exact (isDigit_iff d).mp (List.mem_takeWhile_imp hMem)
  unfold numberTail
  split
  · rename_i after hDrop
    cases hDecimals : after.takeWhile Char.isDigit with
    | nil =>
        exact .whole hFirst (hRun rest)
    | cons d decimals =>
        have hAfter := hRun after
        rw [hDecimals, List.forall_mem_cons] at hAfter
        exact .fraction hFirst (hRun rest) hAfter.1 hAfter.2
  · exact .whole hFirst (hRun rest)

/- A quote opens a string, or is never closed. -/
theorem quoted_cases
    (rest : List Char) :
    Lexeme .string (quoted rest).text ∧
        (quoted rest).kind = .string ∨
      '"' ∉ rest ∧
        quoted rest = ⟨.unclosed, '"', rest⟩ := by
  unfold quoted
  split
  · rename_i hDrop
    rw [List.dropWhile_eq_nil_iff] at hDrop
    right
    refine ⟨?_, ?_⟩
    · intro hMem
      simpa using hDrop '"' hMem
    · rw [List.takeWhile_eq_self_iff.mpr hDrop]
  · rename_i close after hDrop
    have hClose : close = '"' := by
      simpa using not_of_dropWhile_eq_cons hDrop
    left
    refine ⟨?_, rfl⟩
    rw [hClose]
    apply Lexeme.string
    intro hMem
    simpa using List.mem_takeWhile_imp hMem

/- No lexeme starts with a quote that is never closed. -/
theorem not_isPrefix_of_unclosed
    {rest : List Char}
    (hUnclosed : '"' ∉ rest)
    {kind : ChunkKind}
    {other : List Char}
    (hLexeme : Lexeme kind other) :
    ¬ other <+: '"' :: rest := by
  intro hPrefix
  cases hLexeme with
  | blank hBlank =>
      rw [List.cons_prefix_cons] at hPrefix
      rcases hPrefix with ⟨rfl, -⟩
      simp at hBlank
  | comment hLine =>
      simp at hPrefix
  | symbol s =>
      cases s <;> simp [Symbol.spelling] at hPrefix
  | string hContent =>
      rw [List.cons_prefix_cons] at hPrefix
      apply hUnclosed
      exact hPrefix.2.mem (by simp)
  | whole hFirst hDigits =>
      rw [List.cons_prefix_cons] at hPrefix
      rcases hPrefix with ⟨rfl, -⟩
      revert hFirst
      decide
  | fraction hFirst hDigits hPoint hDecimals =>
      rw [List.cons_prefix_cons] at hPrefix
      rcases hPrefix with ⟨rfl, -⟩
      revert hFirst
      decide
  | word hFirst hRest =>
      rw [List.cons_prefix_cons] at hPrefix
      rcases hPrefix with ⟨rfl, -⟩
      revert hFirst
      decide

/-
  No lexeme starts with a character that is in no class and
  starts neither a comment nor a symbol.
-/
theorem not_isPrefix_of_stray
    {rest : List Char}
    (hBlank : ¬ isBlank c = true)
    (hQuote : c ≠ '"')
    (hDigit : ¬ c.isDigit = true)
    (hLetter : ¬ isWordStart c = true)
    (hComment : ¬ ['/', '/'].isPrefixOf (c :: rest) = true)
    (hSymbol : Symbol.startOf? (c :: rest) = none)
    {kind : ChunkKind}
    {other : List Char}
    (hLexeme : Lexeme kind other) :
    ¬ other <+: c :: rest := by
  intro hPrefix
  cases hLexeme with
  | blank hClass =>
      rw [List.cons_prefix_cons] at hPrefix
      rcases hPrefix with ⟨rfl, -⟩
      exact hBlank (decide_eq_true hClass)
  | comment hLine =>
      apply hComment
      rw [List.isPrefixOf_iff_prefix]
      exact (List.prefix_append ['/', '/'] _).trans hPrefix
  | symbol s =>
      have hAll := List.find?_eq_none.mp hSymbol s
      apply hAll
      · cases s <;> decide
      · exact List.isPrefixOf_iff_prefix.mpr hPrefix
  | string hContent =>
      rw [List.cons_prefix_cons] at hPrefix
      exact hQuote hPrefix.1.symm
  | whole hFirst hDigits =>
      rw [List.cons_prefix_cons] at hPrefix
      rcases hPrefix with ⟨rfl, -⟩
      exact hDigit ((isDigit_iff _).mpr hFirst)
  | fraction hFirst hDigits hPoint hDecimals =>
      rw [List.cons_prefix_cons] at hPrefix
      rcases hPrefix with ⟨rfl, -⟩
      exact hDigit ((isDigit_iff _).mpr hFirst)
  | word hFirst hRest =>
      rw [List.cons_prefix_cons] at hPrefix
      rcases hPrefix with ⟨rfl, -⟩
      exact hLetter ((isWordStart_iff _).mpr hFirst)

/-
  The first chunk is a lexeme, or there is none: then it is
  the rest of the text after a quote, or a character that
  stands alone.
-/
theorem first_cases
    (c : Char)
    (rest : List Char) :
    Lexeme (first c rest).kind (first c rest).text ∨
      (∀ kind other,
        Lexeme kind other → ¬ other <+: c :: rest) ∧
        (c = '"' ∧ first c rest = ⟨.unclosed, c, rest⟩ ∨
          c ≠ '"' ∧ first c rest = ⟨.stray, c, []⟩) := by
  by_cases hBlank : isBlank c = true
  · rw [first_of_isBlank hBlank]
    exact .inl (.blank (of_decide_eq_true hBlank))
  by_cases hQuote : c = '"'
  · subst hQuote
    rw [first_quote]
    rcases quoted_cases rest with
      ⟨hLexeme, hKind⟩ | ⟨hOpen, hQuoted⟩
    · rw [hKind]
      exact .inl hLexeme
    · right
      refine ⟨?_, .inl ⟨rfl, hQuoted⟩⟩
      intro kind other hLexeme
      exact not_isPrefix_of_unclosed hOpen hLexeme
  by_cases hDigit : c.isDigit = true
  · rw [first_of_isDigit hDigit]
    exact .inl (lexeme_numberTail hDigit rest)
  by_cases hLetter : isWordStart c = true
  · rw [first_of_isWordStart hLetter]
    left
    apply Lexeme.word ((isWordStart_iff c).mp hLetter)
    intro d hMem
    exact (isWordPart_iff d).mp (List.mem_takeWhile_imp hMem)
  by_cases hComment : ['/', '/'].isPrefixOf (c :: rest) = true
  · rcases List.isPrefixOf_iff_prefix.mp hComment with
      ⟨body, hBody⟩
    rcases List.cons.inj hBody with ⟨rfl, rfl⟩
    left
    apply Lexeme.comment
    intro hMem
    simpa using List.mem_takeWhile_imp hMem
  rw [first_of_no_class hBlank hQuote hDigit hLetter hComment]
  cases hSymbol : Symbol.startOf? (c :: rest) with
  | some s =>
      have hSpelling :=
        Symbol.spelling_eq_cons
          (Symbol.spelling_isPrefix_of_startOf? hSymbol)
      have hLexeme := Lexeme.symbol s
      rw [hSpelling] at hLexeme
      exact .inl hLexeme
  | none =>
      right
      refine ⟨?_, .inr ⟨hQuote, rfl⟩⟩
      intro kind other hLexeme
      exact
        not_isPrefix_of_stray hBlank hQuote hDigit hLetter
          hComment hSymbol hLexeme

end Chunk

end OcScript

------------------------------------------------------------
-- No Lexeme Is Longer
------------------------------------------------------------

namespace OcScript

namespace Chunk

open Lexeme (isDigit_iff isWordStart_iff isWordPart_iff)

variable {c : Char}

/- Where a character does not occur, all are others. -/
theorem forall_ne_of_not_mem
    {text : List Char}
    (hNone : c ∉ text) :
    ∀ d ∈ text, decide (d ≠ c) = true := by
  intro d hMem
  apply decide_eq_true
  rintro rfl
  exact hNone hMem

/- A run of characters of a class is not longer. -/
theorem length_le_takeWhile
    {p : Char → Bool}
    {run text : List Char}
    (hRun : ∀ d ∈ run, p d = true)
    (hPrefix : run <+: text) :
    run.length ≤ (text.takeWhile p).length := by
  rcases hPrefix with ⟨rest, rfl⟩
  rw [List.takeWhile_append_of_pos hRun,
    List.length_append]
  exact Nat.le_add_right _ _

/- A number's tail has all digits that come first. -/
theorem length_takeWhile_le_numberTail
    (rest : List Char) :
    (rest.takeWhile Char.isDigit).length ≤
      (numberTail rest).length := by
  unfold numberTail
  split
  · split
    · exact Nat.le_refl _
    · rw [List.length_append]
      exact Nat.le_add_right _ _
  · exact Nat.le_refl _

/- A number goes on after a point before a digit. -/
theorem numberTail_append_point
    {digits decimals : List Char}
    {d : Char}
    (hDigits : ∀ e ∈ digits, e.isDigit = true)
    (hDecimals : ∀ e ∈ d :: decimals, e.isDigit = true)
    (after : List Char) :
    numberTail (digits ++ '.' :: (d :: decimals ++ after)) =
      digits ++
        '.' :: (d :: decimals ++
          after.takeWhile Char.isDigit) := by
  have hPoint : ¬ Char.isDigit '.' = true := by
    decide
  unfold numberTail
  rw [List.takeWhile_append_of_pos hDigits,
    List.dropWhile_append_of_pos hDigits,
    List.takeWhile_cons_of_neg hPoint,
    List.dropWhile_cons_of_neg hPoint, List.append_nil]
  simp only [List.takeWhile_append_of_pos hDecimals]
  rfl

/- A quoted text that is closed is taken as a whole. -/
theorem quoted_append_quote
    {content : List Char}
    (hContent : '"' ∉ content)
    (after : List Char) :
    quoted (content ++ '"' :: after) =
      ⟨.string, '"', content ++ ['"']⟩ := by
  have hInside := forall_ne_of_not_mem hContent
  have hStop :
      ('"' :: after).takeWhile (fun d => decide (d ≠ '"')) =
        [] :=
    rfl
  unfold quoted
  rw [List.takeWhile_append_of_pos hInside,
    List.dropWhile_append_of_pos hInside, hStop,
    List.append_nil]
  rfl

/- No lexeme at the start is longer than the first chunk. -/
theorem length_le_of_lexeme
    {rest : List Char}
    {kind : ChunkKind}
    {other : List Char}
    (hLexeme : Lexeme kind other)
    (hPrefix : other <+: c :: rest) :
    other.length ≤ (first c rest).text.length := by
  cases hLexeme with
  | blank hBlank =>
      exact Nat.le_add_left 1 _
  | comment hLine =>
      rw [List.cons_prefix_cons] at hPrefix
      rcases hPrefix with ⟨rfl, after, rfl⟩
      apply Nat.succ_le_succ
      apply length_le_takeWhile
      · apply forall_ne_of_not_mem
        simpa using hLine
      · exact List.prefix_append _ _
  | symbol s =>
      rcases s.spelling_cases with
        ⟨d, hSpelling⟩ | ⟨d, e, hSpelling⟩
      · rw [hSpelling]
        exact Nat.le_add_left 1 _
      · rw [hSpelling, List.cons_prefix_cons] at hPrefix
        rcases hPrefix with ⟨rfl, after, rfl⟩
        rw [hSpelling]
        exact
          (congrArg (List.length ∘ text)
            (first_of_twoCharacters hSpelling after)).ge
  | string hContent =>
      rw [List.cons_prefix_cons] at hPrefix
      rcases hPrefix with ⟨rfl, after, rfl⟩
      rw [List.append_assoc, List.singleton_append,
        first_quote, quoted_append_quote hContent]
      exact Nat.le_refl _
  | whole hFirst hDigits =>
      rw [List.cons_prefix_cons] at hPrefix
      rcases hPrefix with ⟨rfl, hPrefix⟩
      simp only [← isDigit_iff] at hFirst hDigits
      rw [first_of_isDigit hFirst]
      apply Nat.succ_le_succ
      exact
        le_trans (length_le_takeWhile hDigits hPrefix)
          (length_takeWhile_le_numberTail rest)
  | fraction hFirst hDigits hPoint hDecimals =>
      rw [List.cons_prefix_cons] at hPrefix
      rcases hPrefix with ⟨rfl, after, rfl⟩
      simp only [← isDigit_iff]
        at hFirst hDigits hPoint hDecimals
      have hTail :=
        numberTail_append_point hDigits
          (List.forall_mem_cons.mpr ⟨hPoint, hDecimals⟩)
          after
      rw [first_of_isDigit hFirst, List.append_assoc,
        List.cons_append, hTail]
      apply Nat.succ_le_succ
      simp only [List.length_append, List.length_cons]
      omega
  | word hFirst hRest =>
      rw [List.cons_prefix_cons] at hPrefix
      rcases hPrefix with ⟨rfl, hPrefix⟩
      simp only [← isWordStart_iff] at hFirst
      simp only [← isWordPart_iff] at hRest
      rw [first_of_isWordStart hFirst]
      apply Nat.succ_le_succ
      exact length_le_takeWhile hRest hPrefix

end Chunk

end OcScript

------------------------------------------------------------
-- Munched Texts
------------------------------------------------------------

namespace OcScript

/- The first chunk of a lexeme is the lexeme. -/
theorem Lexeme.kind_first
    {kind : ChunkKind}
    {c : Char}
    {tail : List Char}
    (hLexeme : Lexeme kind (c :: tail)) :
    (Chunk.first c tail).kind = kind := by
  generalize hText : c :: tail = text at hLexeme
  cases hLexeme with
  | blank hBlank =>
      rcases List.cons.inj hText with ⟨rfl, rfl⟩
      rw [Chunk.first_of_isBlank (decide_eq_true hBlank)]
  | comment hLine =>
      rcases List.cons.inj hText with ⟨rfl, rfl⟩
      rfl
  | symbol s =>
      cases s <;> cases hText <;> rfl
  | string hContent =>
      rcases List.cons.inj hText with ⟨rfl, rfl⟩
      rw [Chunk.first_quote,
        Chunk.quoted_append_quote hContent]
  | whole hFirst hDigits =>
      rcases List.cons.inj hText with ⟨rfl, rfl⟩
      rw [Chunk.first_of_isDigit ((isDigit_iff c).mpr hFirst)]
  | fraction hFirst hDigits hPoint hDecimals =>
      rcases List.cons.inj hText with ⟨rfl, rfl⟩
      rw [Chunk.first_of_isDigit ((isDigit_iff c).mpr hFirst)]
  | word hFirst hRest =>
      rcases List.cons.inj hText with ⟨rfl, rfl⟩
      rw [Chunk.first_of_isWordStart
        ((isWordStart_iff c).mpr hFirst)]

namespace Chunk

/-
  A chunk is what to cut from the front of a text: the
  longest lexeme that the text starts with.  Where there is
  none, it is the whole text if that starts with a quote,
  and one character if not.
-/
inductive Munches
    (text : List Char) :
    Chunk → Prop where
| lexeme
    {k : Chunk}
    (hLexeme : Lexeme k.kind k.text)
    (hPrefix : k.text <+: text)
    (hLongest :
      ∀ kind other,
        Lexeme kind other →
        other <+: text →
        other.length ≤ k.text.length) :
    Munches text k
| unclosed
    {rest : List Char}
    (hNone :
      ∀ kind other, Lexeme kind other → ¬ other <+: text)
    (hText : text = '"' :: rest) :
    Munches text ⟨.unclosed, '"', rest⟩
| stray
    {c : Char}
    {rest : List Char}
    (hNone :
      ∀ kind other, Lexeme kind other → ¬ other <+: text)
    (hText : text = c :: rest)
    (hQuote : c ≠ '"') :
    Munches text ⟨.stray, c, []⟩

/- The chunks make up the text, each cut as it should be. -/
inductive Munched : List Char → List Chunk → Prop where
| nil :
    Munched [] []
| cons
    {k : Chunk}
    {rest : List Char}
    {chunks : List Chunk}
    (hFirst : Munches (k.text ++ rest) k)
    (hRest : Munched rest chunks) :
    Munched (k.text ++ rest) (k :: chunks)

/- The first chunk is cut as it should be. -/
theorem munches_first
    (c : Char)
    (rest : List Char) :
    Munches (c :: rest) (first c rest) := by
  have hPrefix : (first c rest).text <+: c :: rest :=
    ⟨_, text_first_append_drop c rest⟩
  rcases first_cases c rest with
    hLexeme | ⟨hNone, ⟨rfl, hFirst⟩ | ⟨hQuote, hFirst⟩⟩
  · apply Munches.lexeme hLexeme hPrefix
    intro kind other hOther hStart
    exact length_le_of_lexeme hOther hStart
  · rw [hFirst]
    exact .unclosed hNone rfl
  · rw [hFirst]
    exact .stray hNone rfl hQuote

/- Two lexemes of the same text are the same chunk. -/
theorem eq_of_lexeme
    {k other : Chunk}
    (hLexeme : Lexeme k.kind k.text)
    (hOther : Lexeme other.kind other.text)
    (hText : k.text = other.text) :
    k = other := by
  rcases k with ⟨kind, c, tail⟩
  rcases other with ⟨otherKind, d, otherTail⟩
  rcases List.cons.inj hText with ⟨rfl, rfl⟩
  have hKind : kind = otherKind :=
    hLexeme.kind_first.symm.trans hOther.kind_first
  rw [hKind]

/- There is one chunk to cut from the front of a text. -/
theorem Munches.unique
    {text : List Char}
    {k other : Chunk}
    (hMunches : Munches text k)
    (hOther : Munches text other) :
    k = other := by
  cases hMunches with
  | lexeme hLexeme hPrefix hLongest =>
      cases hOther with
      | lexeme hOtherLexeme hOtherPrefix hOtherLongest =>
          apply eq_of_lexeme hLexeme hOtherLexeme
          apply List.IsPrefix.eq_of_length_le
          · exact
              List.prefix_of_prefix_length_le hPrefix
                hOtherPrefix
                (hOtherLongest _ _ hLexeme hPrefix)
          · exact hLongest _ _ hOtherLexeme hOtherPrefix
      | unclosed hNone hText =>
          exact absurd hPrefix (hNone _ _ hLexeme)
      | stray hNone hText hQuote =>
          exact absurd hPrefix (hNone _ _ hLexeme)
  | unclosed hNone hText =>
      cases hOther with
      | lexeme hLexeme hPrefix hLongest =>
          exact absurd hPrefix (hNone _ _ hLexeme)
      | unclosed hOtherNone hOtherText =>
          rw [hText] at hOtherText
          rw [(List.cons.inj hOtherText).2]
      | stray hOtherNone hOtherText hQuote =>
          rw [hText] at hOtherText
          exact absurd (List.cons.inj hOtherText).1.symm hQuote
  | stray hNone hText hQuote =>
      cases hOther with
      | lexeme hLexeme hPrefix hLongest =>
          exact absurd hPrefix (hNone _ _ hLexeme)
      | unclosed hOtherNone hOtherText =>
          rw [hText] at hOtherText
          exact absurd (List.cons.inj hOtherText).1 hQuote
      | stray hOtherNone hOtherText hOtherQuote =>
          rw [hText] at hOtherText
          rw [(List.cons.inj hOtherText).1]

/- The scanner cuts a text in the only way there is. -/
theorem munched_iff
    {source : List Char}
    {chunks : List Chunk} :
    Munched source chunks ↔ ofText source = chunks := by
  refine ⟨?_, ?_⟩
  · intro hMunched
    induction hMunched with
    | nil =>
        rw [ofText]
    | @cons k rest chunks hFirst hRest ih =>
        have hSame : k = first k.head (k.tail ++ rest) :=
          hFirst.unique (munches_first _ _)
        rw [text, List.cons_append, ofText, ← hSame,
          List.drop_left, ih]
  · rintro rfl
    fun_induction ofText source with
    | case1 =>
        exact .nil
    | case2 c rest k ih =>
        have hText := text_first_append_drop c rest
        have hFirst := munches_first c rest
        rw [← hText] at hFirst ⊢
        exact .cons hFirst ih

/- A chunk of a text is a lexeme unless it is at fault. -/
theorem lexeme_or_fault
    {text : List Char}
    {k : Chunk}
    (hMem : k ∈ ofText text) :
    Lexeme k.kind k.text ∨
      k.kind = .unclosed ∨ k.kind = .stray := by
  fun_induction ofText text with
  | case1 =>
      cases hMem
  | case2 c rest first ih =>
      rcases List.mem_cons.mp hMem with rfl | hMem
      · rcases first_cases c rest with
          hLexeme | ⟨-, ⟨-, hFirst⟩ | ⟨-, hFirst⟩⟩
        · exact .inl hLexeme
        · exact .inr (.inl (congrArg Chunk.kind hFirst))
        · exact .inr (.inr (congrArg Chunk.kind hFirst))
      · exact ih hMem

/- A munched string is closed by a quote. -/
theorem Munched.closed_of_mem
    {source : List Char}
    {chunks : List Chunk}
    (hMunched : Munched source chunks)
    {k : Chunk}
    (hMem : k ∈ chunks)
    (hKind : k.kind = .string) :
    ∃ content, k.text = '"' :: (content ++ ['"']) := by
  induction hMunched with
  | nil =>
      cases hMem
  | cons hFirst hRest ih =>
      rcases List.mem_cons.mp hMem with rfl | hMem
      · cases hFirst with
        | lexeme hLexeme hPrefix hLongest =>
            rw [hKind] at hLexeme
            generalize k.text = text at hLexeme
            cases hLexeme with
            | string hContent =>
                exact ⟨_, rfl⟩
        | unclosed hNone hText =>
            cases hKind
        | stray hNone hText hQuote =>
            cases hKind
      · exact ih hMem

/- The chunks of a munched text make up the text. -/
theorem Munched.flatMap_text
    {source : List Char}
    {chunks : List Chunk}
    (hMunched : Munched source chunks) :
    chunks.flatMap text = source := by
  rw [← munched_iff.mp hMunched]
  exact flatMap_text_ofText source

end Chunk

end OcScript

------------------------------------------------------------
-- Listed Chunks
------------------------------------------------------------

namespace OcScript

namespace Chunk

/- A chunk stands for tokens of a kind. -/
inductive Denotes
    (table : KeywordTable)
    (k : Chunk) :
    TokenKind → Prop where
| symbol
    {s : Symbol}
    (hKind : k.kind = .symbol s) :
    Denotes table k (.symbol s)
| string
    {content : List Char}
    (hKind : k.kind = .string)
    (hText : k.text = '"' :: (content ++ ['"'])) :
    Denotes table k (.string (String.ofList content))
| number
    (hKind : k.kind = .number) :
    Denotes table k (.number (Decimal.ofText k.text).toFloat)
| keyword
    {keyword : Keyword}
    (hKind : k.kind = .word)
    (hEntry :
      table[String.ofList k.text]? = some keyword) :
    Denotes table k (.keyword keyword)
| identifier
    (hKind : k.kind = .word)
    (hEntry : table[String.ofList k.text]? = none) :
    Denotes table k .identifier

/-
  What a chunk that ends on a line makes: nothing, one token
  with the chunk as its lexeme, or one error.
-/
inductive Makes
    (table : KeywordTable)
    (line : Nat)
    (k : Chunk) :
    Option Token → Option ScanError → Prop where
| nothing
    (hKind : k.kind = .blank ∨ k.kind = .comment) :
    Makes table line k none none
| token
    {kind : TokenKind}
    (hKind : Denotes table k kind) :
    Makes table line k
      (some ⟨kind, String.ofList k.text, line⟩) none
| stray
    {e : ScanError}
    (hKind : k.kind = .stray)
    (hLine : e.line = line)
    (hMessage : e.cause.message = "Unexpected character.") :
    Makes table line k none (some e)
| unclosed
    {e : ScanError}
    (hKind : k.kind = .unclosed)
    (hLine : e.line = line)
    (hMessage : e.cause.message = "Unterminated string.") :
    Makes table line k none (some e)

/-
  The tokens and the errors that chunks make in order, the
  first of which starts on a line.  One more token, without
  text, marks the end.
-/
inductive Listed
    (table : KeywordTable) :
    Nat → List Chunk →
    List Token → List ScanError → Prop where
| done
    {line : Nat} :
    Listed table line [] [⟨.eof, "", line⟩] []
| cons
    {line : Nat}
    {k : Chunk}
    {chunks : List Chunk}
    {token : Option Token}
    {error : Option ScanError}
    {tokens : List Token}
    {errors : List ScanError}
    (hFirst :
      Makes table (line + k.newlines) k token error)
    (hRest :
      Listed table (line + k.newlines) chunks tokens
        errors) :
    Listed table line (k :: chunks)
      (token.toList ++ tokens)
      (error.toList ++ errors)

variable {table : KeywordTable}

/- A chunk makes a token of the kind it stands for. -/
theorem Denotes.kind?_eq
    {k : Chunk}
    {kind : TokenKind}
    (hDenotes : Denotes table k kind) :
    Located.kind? table k = some kind := by
  cases hDenotes with
  | symbol hKind =>
      simp only [Located.kind?, hKind]
  | string hKind hText =>
      have hTail := (List.cons.inj hText).2
      simp only [Located.kind?, hKind, hTail,
        List.dropLast_concat]
  | number hKind =>
      simp only [Located.kind?, hKind]
  | keyword hKind hEntry =>
      simp only [Located.kind?, KeywordTable.kindOf, hKind,
        hEntry]
  | identifier hKind hEntry =>
      simp only [Located.kind?, KeywordTable.kindOf, hKind,
        hEntry]

/- A chunk that stands for a token is not at fault. -/
theorem Denotes.error?_eq
    {k : Chunk}
    {kind : TokenKind}
    (hDenotes : Denotes table k kind)
    (line : Nat) :
    Located.error? ⟨line, k⟩ = none := by
  cases hDenotes with
  | symbol hKind =>
      simp only [Located.error?, hKind]
  | string hKind hText =>
      simp only [Located.error?, hKind]
  | number hKind =>
      simp only [Located.error?, hKind]
  | keyword hKind hEntry =>
      simp only [Located.error?, hKind]
  | identifier hKind hEntry =>
      simp only [Located.error?, hKind]

/- A located chunk makes no other token and no other error. -/
theorem Makes.eq
    {line : Nat}
    {k : Chunk}
    {token : Option Token}
    {error : Option ScanError}
    (hMakes : Makes table line k token error) :
    token = Located.token? table ⟨line, k⟩ ∧
      error = Located.error? ⟨line, k⟩ := by
  cases hMakes with
  | nothing hKind =>
      rcases hKind with hKind | hKind <;>
        simp only [Located.token?, Located.error?,
          Located.kind?, hKind, Option.map_none, and_self]
  | token hKind =>
      rw [Located.token?, hKind.kind?_eq, hKind.error?_eq]
      exact ⟨rfl, rfl⟩
  | @stray e hKind hLine hMessage =>
      rcases e with ⟨_, cause⟩
      cases cause with
      | unexpectedCharacter =>
          simp only [Located.token?, Located.error?,
            Located.kind?, hKind, Option.map_none, ← hLine,
            and_self]
      | unterminatedString =>
          simp [ScanCause.message] at hMessage
  | @unclosed e hKind hLine hMessage =>
      rcases e with ⟨_, cause⟩
      cases cause with
      | unexpectedCharacter =>
          simp [ScanCause.message] at hMessage
      | unterminatedString =>
          simp only [Located.token?, Located.error?,
            Located.kind?, hKind, Option.map_none, ← hLine,
            and_self]

/- A located chunk makes its token or its error. -/
theorem makes_located
    (line : Nat)
    {k : Chunk}
    (hClosed :
      k.kind = .string →
        ∃ content, k.text = '"' :: (content ++ ['"'])) :
    Makes table line k (Located.token? table ⟨line, k⟩)
      (Located.error? ⟨line, k⟩) := by
  have hToken :
      ∀ {kind}, Denotes table k kind →
        Makes table line k (Located.token? table ⟨line, k⟩)
          (Located.error? ⟨line, k⟩) := by
    intro kind hDenotes
    rw [Located.token?, hDenotes.kind?_eq,
      hDenotes.error?_eq]
    exact .token hDenotes
  cases hKind : k.kind with
  | blank =>
      simp only [Located.token?, Located.error?,
        Located.kind?, hKind]
      exact .nothing (.inl hKind)
  | comment =>
      simp only [Located.token?, Located.error?,
        Located.kind?, hKind]
      exact .nothing (.inr hKind)
  | symbol s =>
      exact hToken (.symbol hKind)
  | string =>
      rcases hClosed hKind with ⟨content, hText⟩
      exact hToken (.string hKind hText)
  | number =>
      exact hToken (.number hKind)
  | word =>
      cases hEntry : table[String.ofList k.text]? with
      | some keyword =>
          exact hToken (.keyword hKind hEntry)
      | none =>
          exact hToken (.identifier hKind hEntry)
  | unclosed =>
      simp only [Located.token?, Located.error?,
        Located.kind?, hKind]
      exact .unclosed hKind rfl rfl
  | stray =>
      simp only [Located.token?, Located.error?,
        Located.kind?, hKind]
      exact .stray hKind rfl rfl

/- What the first of several makes comes first. -/
theorem filterMap_cons_append
    {α β : Type}
    (f : α → Option β)
    (a : α)
    (rest : List α) :
    (a :: rest).filterMap f =
      (f a).toList ++ rest.filterMap f := by
  cases hFirst : f a with
  | none =>
      rw [List.filterMap_cons_none hFirst]
      rfl
  | some b =>
      rw [List.filterMap_cons_some hFirst]
      rfl

/- The line after a chunk is the line the chunk ends on. -/
theorem count_newline_cons
    (line : Nat)
    (k : Chunk)
    (chunks : List Chunk) :
    line + ((k :: chunks).flatMap text).count '\n' =
      line + k.newlines +
        (chunks.flatMap text).count '\n' := by
  rw [List.flatMap_cons, List.count_append, newlines,
    Nat.add_assoc]

/- What is listed is what the located chunks make. -/
theorem Listed.eq
    {line : Nat}
    {chunks : List Chunk}
    {tokens : List Token}
    {errors : List ScanError}
    (hListed : Listed table line chunks tokens errors) :
    tokens =
        (Located.ofChunks line chunks).filterMap
          (Located.token? table) ++
          [Token.atEnd
            (line + (chunks.flatMap text).count '\n')] ∧
      errors =
        (Located.ofChunks line chunks).filterMap
          Located.error? := by
  induction hListed with
  | done =>
      exact ⟨rfl, rfl⟩
  | cons hFirst hRest ih =>
      rcases hFirst.eq with ⟨rfl, rfl⟩
      rcases ih with ⟨rfl, rfl⟩
      rw [Located.ofChunks, filterMap_cons_append,
        filterMap_cons_append, count_newline_cons,
        List.append_assoc]
      exact ⟨rfl, rfl⟩

/- What the located chunks make is listed. -/
theorem listed_ofChunks
    (table : KeywordTable)
    (line : Nat)
    {chunks : List Chunk}
    (hClosed :
      ∀ k ∈ chunks, k.kind = .string →
        ∃ content, k.text = '"' :: (content ++ ['"'])) :
    Listed table line chunks
      ((Located.ofChunks line chunks).filterMap
        (Located.token? table) ++
        [Token.atEnd
          (line + (chunks.flatMap text).count '\n')])
      ((Located.ofChunks line chunks).filterMap
        Located.error?) := by
  induction chunks generalizing line with
  | nil =>
      exact .done
  | cons k chunks ih =>
      rw [List.forall_mem_cons] at hClosed
      have hListed :=
        Listed.cons (makes_located _ hClosed.1)
          (ih (line + k.newlines) hClosed.2)
      rw [Located.ofChunks, filterMap_cons_append,
        filterMap_cons_append, count_newline_cons,
        List.append_assoc]
      exact hListed

end Chunk

end OcScript

------------------------------------------------------------
-- Scanning Is Maximal Munch
------------------------------------------------------------

namespace OcScript

/- A scan lists the longest lexemes of its source. -/
theorem scan_munches
    (table : KeywordTable)
    (source : String) :
    ∃ chunks,
      chunks.flatMap Chunk.text = source.toList ∧
        Chunk.Munched source.toList chunks ∧
        Chunk.Listed table 1 chunks
          (scan table source).tokens
          (scan table source).errors := by
  have hMunched :
      Chunk.Munched source.toList
        (Chunk.ofText source.toList) :=
    Chunk.munched_iff.mpr rfl
  have hListed :=
    Chunk.listed_ofChunks table 1
      fun k hMem => hMunched.closed_of_mem hMem
  rw [hMunched.flatMap_text] at hListed
  exact ⟨_, hMunched.flatMap_text, hMunched, hListed⟩

/- What lists the longest lexemes of a source is its scan. -/
theorem scan_eq_of_munched
    {table : KeywordTable}
    {source : String}
    {scanned : Scanned}
    {chunks : List Chunk}
    (hText : chunks.flatMap Chunk.text = source.toList)
    (hMunched : Chunk.Munched source.toList chunks)
    (hListed :
      Chunk.Listed table 1 chunks scanned.tokens
        scanned.errors) :
    scan table source = scanned := by
  rcases hListed.eq with ⟨hTokens, hErrors⟩
  rw [hText] at hTokens
  rw [← Chunk.munched_iff.mp hMunched] at hTokens hErrors
  rcases scanned with ⟨tokens, errors⟩
  simp only at hTokens hErrors
  rw [hTokens, hErrors]
  rfl

end OcScript
