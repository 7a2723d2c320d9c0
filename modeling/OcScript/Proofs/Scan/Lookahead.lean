import OcScript.Proofs.Scan.MaximalMunch

/-
  This file says how far a chunk looks beyond its own end,
  and proves that words can be exchanged for other words
  without moving any other chunk.

  Two texts look alike if they agree up to the first place
  where both have the start of a word.  What follows a chunk
  decides where the chunk ends, but never by the letters of
  a word that starts there.  So each chunk is found again in
  front of a text that looks alike.

  Key definitions include:
    * `OcScript.Chunk.LooksAlike`
    * `OcScript.Chunk.Exchanges`

  Key theorems include:
    * `OcScript.Chunk.first_of_looksAlike`
    * `OcScript.Chunk.looksAlike_exchanged`
    * `OcScript.Chunk.ofText_exchanged`
-/

------------------------------------------------------------
-- Texts That Look Alike
------------------------------------------------------------

namespace OcScript

namespace Chunk

/-
  Both texts go on alike until they end or until a word
  starts in both of them, which need not be the same word.
-/
inductive LooksAlike : List Char → List Char → Prop where
| nil :
    LooksAlike [] []
| cons
    (c : Char)
    {rest other : List Char}
    (hRest : LooksAlike rest other) :
    LooksAlike (c :: rest) (c :: other)
| word
    {c d : Char}
    (hLetter : isWordStart c = true)
    (hOther : isWordStart d = true)
    (rest other : List Char) :
    LooksAlike (c :: rest) (d :: other)

/- A run that is taken as a whole stops right after it. -/
theorem takeWhile_append_eq_self_iff
    {p : Char → Bool}
    {run after : List Char} :
    (run ++ after).takeWhile p = run ↔
      (∀ c ∈ run, p c = true) ∧ after.takeWhile p = [] := by
  refine ⟨?_, ?_⟩
  · intro hRun
    have hInside : ∀ c ∈ run, p c = true := by
      intro c hMem
      rw [← hRun] at hMem
      exact List.mem_takeWhile_imp hMem
    rw [List.takeWhile_append_of_pos hInside,
      List.append_right_eq_self] at hRun
    exact ⟨hInside, hRun⟩
  · rintro ⟨hInside, hStops⟩
    rw [List.takeWhile_append_of_pos hInside, hStops,
      List.append_nil]

namespace LooksAlike

variable {after other : List Char}

theorem append
    (hAlike : LooksAlike after other)
    (front : List Char) :
    LooksAlike (front ++ after) (front ++ other) := by
  induction front with
  | nil =>
      exact hAlike
  | cons c front ih =>
      exact .cons c ih

/- A run that treats all letters alike stops in both. -/
theorem takeWhile_eq_nil
    {p : Char → Bool}
    (hLetters :
      ∀ c d,
        isWordStart c = true →
        isWordStart d = true →
        p c = p d)
    (hAlike : LooksAlike after other)
    (hStops : after.takeWhile p = []) :
    other.takeWhile p = [] := by
  cases hAlike with
  | nil =>
      rfl
  | cons c hRest =>
      rw [List.takeWhile_cons] at hStops ⊢
      split at hStops
      · cases hStops
      · rename_i hStop
        rw [if_neg hStop]
  | word hLetter hOther rest other =>
      rw [List.takeWhile_cons] at hStops ⊢
      rw [← hLetters _ _ hLetter hOther]
      split at hStops
      · cases hStops
      · rename_i hStop
        rw [if_neg hStop]

/- A run that ends in front of one ends in front of both. -/
theorem takeWhile_append
    {p : Char → Bool}
    (hLetters :
      ∀ c d,
        isWordStart c = true →
        isWordStart d = true →
        p c = p d)
    (hAlike : LooksAlike after other)
    {run : List Char}
    (hRun : (run ++ after).takeWhile p = run) :
    (run ++ other).takeWhile p = run := by
  rw [takeWhile_append_eq_self_iff] at hRun ⊢
  exact ⟨hRun.1, hAlike.takeWhile_eq_nil hLetters hRun.2⟩

/- A character that is no letter starts both or none. -/
theorem isPrefixOf_eq
    (hAlike : LooksAlike after other)
    {c : Char}
    (hSign : isWordStart c = false) :
    [c].isPrefixOf after = [c].isPrefixOf other := by
  cases hAlike with
  | nil =>
      rfl
  | cons d hRest =>
      rfl
  | word hLetter hOther rest other =>
      have hNe :
          ∀ d, isWordStart d = true → (c == d) = false := by
        intro d hStart
        apply beq_false_of_ne
        rintro rfl
        rw [hSign] at hStart
        cases hStart
      simp only [List.isPrefixOf, hNe _ hLetter,
        hNe _ hOther]

end LooksAlike

/- Letters are never digits. -/
theorem isDigit_alike
    (c d : Char)
    (hLetter : isWordStart c = true)
    (hOther : isWordStart d = true) :
    c.isDigit = d.isDigit := by
  rw [isDigit_eq_false_of_isWordStart hLetter,
    isDigit_eq_false_of_isWordStart hOther]

/- Letters are always parts of words. -/
theorem isWordPart_alike
    (c d : Char)
    (hLetter : isWordStart c = true)
    (hOther : isWordStart d = true) :
    isWordPart c = isWordPart d := by
  simp only [isWordPart, hLetter, hOther, true_or]

/- Letters are never the end of a line. -/
theorem inLine_alike
    (c d : Char)
    (hLetter : isWordStart c = true)
    (hOther : isWordStart d = true) :
    decide (c ≠ '\n') = decide (d ≠ '\n') := by
  have hNe :
      ∀ e, isWordStart e = true → decide (e ≠ '\n') = true := by
    rintro e hStart
    apply decide_eq_true
    rintro rfl
    cases hStart
  rw [hNe c hLetter, hNe d hOther]

end Chunk

end OcScript

------------------------------------------------------------
-- The First Chunk in Front of Them
------------------------------------------------------------

namespace OcScript

namespace Symbol

/- The longest symbol is the same in both texts. -/
theorem startOf?_of_looksAlike
    {rest other : List Char}
    (hAlike : Chunk.LooksAlike rest other)
    (c : Char) :
    startOf? (c :: rest) = startOf? (c :: other) := by
  unfold startOf?
  congr 1
  funext symbol
  rcases symbol.spelling_cases with
    ⟨d, hSpelling⟩ | ⟨d, e, hSpelling⟩
  · rw [hSpelling]
    simp only [List.isPrefixOf]
  · have hSign : Chunk.isWordStart e = false := by
      cases symbol <;> cases hSpelling <;> rfl
    have hNext := hAlike.isPrefixOf_eq hSign
    rw [hSpelling]
    simp only [List.isPrefixOf] at hNext ⊢
    rw [hNext]

end Symbol

namespace Chunk

variable {after other : List Char}

/-
  A number without a point ends in front of anything but a
  digit, or a point before a digit.
-/
theorem numberTail_append_of_stops
    {digits : List Char}
    (hDigits : ∀ d ∈ digits, d.isDigit = true)
    (hStops : after.takeWhile Char.isDigit = [])
    (hPoint :
      ∀ later,
        after = '.' :: later →
        later.takeWhile Char.isDigit = []) :
    numberTail (digits ++ after) = digits := by
  have hDrop : after.dropWhile Char.isDigit = after := by
    have hSplit :=
      List.takeWhile_append_dropWhile
        (p := Char.isDigit) (l := after)
    rw [hStops] at hSplit
    exact hSplit
  unfold numberTail
  rw [List.takeWhile_append_of_pos hDigits,
    List.dropWhile_append_of_pos hDigits, hStops, hDrop,
    List.append_nil]
  cases after with
  | nil =>
      rfl
  | cons c later =>
      by_cases hDot : c = '.'
      · subst hDot
        simp only [hPoint later rfl]
      · split
        · rename_i hCons
          cases hCons
          exact absurd rfl hDot
        · rfl

/- A number that ends in front of a point has no decimals. -/
theorem takeWhile_eq_nil_of_numberTail
    {digits later : List Char}
    (hDigits : ∀ d ∈ digits, d.isDigit = true)
    (hTail : numberTail (digits ++ '.' :: later) = digits) :
    later.takeWhile Char.isDigit = [] := by
  cases hDecimals : later.takeWhile Char.isDigit with
  | nil =>
      rfl
  | cons d decimals =>
      have hAll : ∀ e ∈ d :: decimals, e.isDigit = true := by
        intro e hMem
        rw [← hDecimals] at hMem
        exact List.mem_takeWhile_imp hMem
      have hSplit :=
        List.takeWhile_append_dropWhile
          (p := Char.isDigit) (l := later)
      rw [hDecimals] at hSplit
      rw [← hSplit, numberTail_append_point hDigits hAll]
        at hTail
      simp at hTail

/- A number ends where it did. -/
theorem numberTail_of_looksAlike
    (hAlike : LooksAlike after other)
    {tail : List Char}
    (hTail : numberTail (tail ++ after) = tail) :
    numberTail (tail ++ other) = tail := by
  have hLexeme : Lexeme .number ('0' :: tail) := by
    have hNumber :=
      lexeme_numberTail (c := '0') rfl (tail ++ after)
    rwa [hTail] at hNumber
  cases hLexeme with
  | whole hFirst hDigits =>
      simp only [← Lexeme.isDigit_iff] at hDigits
      have hStops : after.takeWhile Char.isDigit = [] := by
        have hLength :=
          length_takeWhile_le_numberTail (tail ++ after)
        rw [hTail, List.takeWhile_append_of_pos hDigits,
          List.length_append] at hLength
        apply List.length_eq_zero_iff.mp
        omega
      apply numberTail_append_of_stops hDigits
      · exact hAlike.takeWhile_eq_nil isDigit_alike hStops
      · rintro later rfl
        cases hAlike with
        | cons _ hRest =>
            apply hRest.takeWhile_eq_nil isDigit_alike
            exact takeWhile_eq_nil_of_numberTail hDigits hTail
        | word hLetter hOther rest _ =>
            cases hOther
  | @fraction _ d digits decimals hFirst hDigits hPoint
      hDecimals =>
      simp only [← Lexeme.isDigit_iff]
        at hDigits hPoint hDecimals
      have hAll : ∀ e ∈ d :: decimals, e.isDigit = true :=
        List.forall_mem_cons.mpr ⟨hPoint, hDecimals⟩
      have hText :
          ∀ text,
            digits ++ '.' :: d :: decimals ++ text =
              digits ++ '.' :: (d :: decimals ++ text) := by
        intro text
        simp
      rw [hText, numberTail_append_point hDigits hAll]
        at hTail ⊢
      have hStops : after.takeWhile Char.isDigit = [] := by
        simpa using hTail
      rw [hAlike.takeWhile_eq_nil isDigit_alike hStops,
        List.append_nil]

/- A closed string ends where it did. -/
theorem quoted_of_looksAlike
    (hAlike : LooksAlike after other)
    {tail : List Char}
    (hTail : (quoted (tail ++ after)).tail = tail) :
    quoted (tail ++ other) = quoted (tail ++ after) := by
  rcases quoted_cases (tail ++ after) with
    ⟨hLexeme, -⟩ | ⟨-, hQuoted⟩
  · rw [text, hTail] at hLexeme
    generalize (quoted (tail ++ after)).head = c at hLexeme
    cases hLexeme with
    | string hContent =>
        rw [List.append_assoc, List.append_assoc,
          List.singleton_append, List.singleton_append,
          quoted_append_quote hContent,
          quoted_append_quote hContent]
  · rw [hQuoted] at hTail
    have hNil : after = [] := by
      simpa using hTail
    subst hNil
    cases hAlike
    rfl

theorem first_of_comment
    {c : Char}
    {rest : List Char}
    (hComment : ['/', '/'].isPrefixOf (c :: rest) = true) :
    first c rest =
      ⟨.comment, c, rest.takeWhile (· ≠ '\n')⟩ := by
  rcases List.isPrefixOf_iff_prefix.mp hComment with
    ⟨body, hBody⟩
  rcases List.cons.inj hBody with ⟨rfl, rfl⟩
  rfl

/-
  The first chunk is found again in front of what looks like
  the rest of its text.
-/
theorem first_of_looksAlike
    (hAlike : LooksAlike after other)
    {c : Char}
    {tail : List Char}
    (hTail : (first c (tail ++ after)).tail = tail) :
    first c (tail ++ other) = first c (tail ++ after) := by
  have hRest := hAlike.append tail
  have hSlashes :
      ['/', '/'].isPrefixOf (c :: (tail ++ after)) =
        ['/', '/'].isPrefixOf (c :: (tail ++ other)) := by
    have hSlash := hRest.isPrefixOf_eq (c := '/') rfl
    simp only [List.isPrefixOf] at hSlash ⊢
    rw [hSlash]
  by_cases hBlank : isBlank c = true
  · rw [first_of_isBlank hBlank, first_of_isBlank hBlank]
  by_cases hQuote : c = '"'
  · subst hQuote
    exact quoted_of_looksAlike hAlike hTail
  by_cases hDigit : c.isDigit = true
  · rw [first_of_isDigit hDigit] at hTail ⊢
    dsimp only at hTail
    rw [first_of_isDigit hDigit, hTail,
      numberTail_of_looksAlike hAlike hTail]
  by_cases hLetter : isWordStart c = true
  · rw [first_of_isWordStart hLetter] at hTail ⊢
    dsimp only at hTail
    rw [first_of_isWordStart hLetter, hTail,
      hAlike.takeWhile_append isWordPart_alike hTail]
  by_cases hComment :
      ['/', '/'].isPrefixOf (c :: (tail ++ after)) = true
  · rw [first_of_comment hComment] at hTail ⊢
    dsimp only at hTail
    rw [hSlashes] at hComment
    rw [first_of_comment hComment, hTail,
      hAlike.takeWhile_append inLine_alike hTail]
  · rw [first_of_no_class hBlank hQuote hDigit hLetter
      hComment]
    rw [hSlashes] at hComment
    rw [first_of_no_class hBlank hQuote hDigit hLetter
      hComment, Symbol.startOf?_of_looksAlike hRest]

end Chunk

end OcScript

------------------------------------------------------------
-- Exchanged Words
------------------------------------------------------------

namespace OcScript

namespace Chunk

/- A chunk stays as it is, or is a word and becomes one. -/
def Exchanges
    (g : Chunk → Chunk)
    (k : Chunk) :
    Prop :=
  g k = k ∨
    k.kind = .word ∧
      (g k).kind = .word ∧ Lexeme .word (g k).text

/- The text with its chunks exchanged in place. -/
def exchanged
    (g : Chunk → Chunk)
    (source : List Char) :
    List Char :=
  (ofText source).flatMap fun k => (g k).text

theorem exchanged_nil
    (g : Chunk → Chunk) :
    exchanged g [] = [] := by
  rw [exchanged, ofText, List.flatMap_nil]

theorem exchanged_cons
    (g : Chunk → Chunk)
    (c : Char)
    (rest : List Char) :
    exchanged g (c :: rest) =
      (g (first c rest)).text ++
        exchanged g
          (rest.drop (first c rest).tail.length) := by
  rw [exchanged, ofText, List.flatMap_cons, exchanged]

/- A word starts with a letter. -/
theorem isWordStart_head
    {k : Chunk}
    (hLexeme : Lexeme .word k.text) :
    isWordStart k.head = true := by
  cases hLexeme with
  | word hFirst hRest =>
      exact (Lexeme.isWordStart_iff _).mpr hFirst

/- A first chunk that is a word is one of the grammar. -/
theorem lexeme_first_of_word
    {c : Char}
    {rest : List Char}
    (hWord : (first c rest).kind = .word) :
    Lexeme .word (first c rest).text := by
  rcases first_cases c rest with
    hLexeme | ⟨-, ⟨-, hFirst⟩ | ⟨-, hFirst⟩⟩
  · rwa [hWord] at hLexeme
  · rw [hFirst] at hWord
    cases hWord
  · rw [hFirst] at hWord
    cases hWord

/- If the first chunk is a word, the text starts with one. -/
theorem isWordStart_of_first
    {c : Char}
    {rest : List Char}
    (hWord : (first c rest).kind = .word) :
    isWordStart c = true := by
  have hLetter :=
    isWordStart_head (lexeme_first_of_word hWord)
  rwa [head_first] at hLetter

/- With words exchanged, a text looks as it did. -/
theorem looksAlike_exchanged
    {g : Chunk → Chunk}
    {source : List Char}
    (hExchanges : ∀ k ∈ ofText source, Exchanges g k) :
    LooksAlike source (exchanged g source) := by
  fun_induction ofText source with
  | case1 =>
      rw [exchanged_nil]
      exact .nil
  | case2 c rest k ih =>
      rw [List.forall_mem_cons] at hExchanges
      rw [exchanged_cons]
      rcases hExchanges.1 with hSame | ⟨hWord, -, hLexeme⟩
      · have hAlike :=
          (ih hExchanges.2).append (first c rest).text
        rw [text_first_append_drop] at hAlike
        rw [hSame]
        exact hAlike
      · exact
          .word (isWordStart_of_first hWord)
            (isWordStart_head hLexeme) _ _

/- A word ends in front of what it cannot go on with. -/
theorem first_append_of_word
    {k : Chunk}
    (hKind : k.kind = .word)
    (hLexeme : Lexeme .word k.text)
    {after : List Char}
    (hStops : after.takeWhile isWordPart = []) :
    first k.head (k.tail ++ after) = k := by
  rcases k with ⟨kind, c, tail⟩
  cases hKind
  cases hLexeme with
  | word hFirst hRest =>
      rw [← Lexeme.isWordStart_iff] at hFirst
      simp only [← Lexeme.isWordPart_iff] at hRest
      rw [first_of_isWordStart hFirst,
        List.takeWhile_append_of_pos hRest, hStops,
        List.append_nil]

/-
  Exchanging words for words in place moves no chunk: the
  chunks of the new text are the exchanged ones.
-/
theorem ofText_exchanged
    {g : Chunk → Chunk}
    {source : List Char}
    (hExchanges : ∀ k ∈ ofText source, Exchanges g k) :
    ofText (exchanged g source) =
      (ofText source).map g := by
  fun_induction ofText source with
  | case1 =>
      rw [exchanged_nil, ofText, List.map_nil]
  | case2 c rest k ih =>
      rw [List.forall_mem_cons] at hExchanges
      have hAlike := looksAlike_exchanged hExchanges.2
      have hRest : k.tail ++ rest.drop k.tail.length = rest :=
        (List.cons.inj (text_first_append_drop c rest)).2
      have hFirst :
          first (g k).head
              ((g k).tail ++
                exchanged g (rest.drop k.tail.length)) =
            g k := by
        rcases hExchanges.1 with
          hSame | ⟨hWord, hKind, hLexeme⟩
        · have hAgain :=
            first_of_looksAlike hAlike
              (congrArg (fun text => (first c text).tail)
                hRest)
          rw [hRest] at hAgain
          rw [hSame, head_first]
          exact hAgain
        · have hLetter := isWordStart_of_first hWord
          have hRun : rest.takeWhile isWordPart = k.tail :=
            (congrArg Chunk.tail
              (first_of_isWordStart hLetter rest)).symm
          rw [← hRest, takeWhile_append_eq_self_iff] at hRun
          apply first_append_of_word hKind hLexeme
          exact
            hAlike.takeWhile_eq_nil isWordPart_alike hRun.2
      rw [exchanged_cons, text, List.cons_append, ofText,
        hFirst, List.drop_left, ih hExchanges.2,
        List.map_cons]

end Chunk

end OcScript
