import OcScript.Proofs.Scan.Lines
import OcScript.Proofs.Scan.Rescan

/-
  This file proves that comments and stray characters are
  worth as much as a space.

  Put a space in the place of each.  No lexeme could go on
  over that space but a string or a comment, and whether one
  of those is open was settled by its first characters.  So
  a longer lexeme of the new text would stand in front of
  the space, where it would have been found in the source,
  too.  The cuts stay where they were, and nothing but the
  reports of stray characters is lost.

  Key definitions include:
    * `OcScript.Located.isIdle`
    * `OcScript.Located.blanked`
    * `OcScript.Chunk.blanked`

  Key theorems include:
    * `OcScript.Lexeme.space_not_mem`
    * `OcScript.Chunk.isPrefix_of_blanked`
    * `OcScript.Chunk.munched_blanked`
    * `OcScript.Chunk.length_errors_blanked_le`
    * `OcScript.comments_and_strays_are_blanks`
-/

------------------------------------------------------------
-- Spaces for Comments and Stray Characters
------------------------------------------------------------

namespace OcScript

namespace Located

/- A comment, or a character reported as unexpected. -/
def isIdle
    (l : Located) :
    Bool :=
  l.chunk.kind = .comment ∨
    l.error?.map ScanError.cause = some .unexpectedCharacter

/- The text of a chunk, or a space in its place. -/
def blanked
    (l : Located) :
    List Char :=
  if l.isIdle then [' '] else l.chunk.text

end Located

namespace Chunk

/- A chunk, or a space in its place. -/
def blanked
    (k : Chunk) :
    Chunk :=
  if k.kind = .comment ∨ k.kind = .stray then space else k

variable {k : Chunk}

theorem blanked_of_idle
    (hIdle : k.kind = .comment ∨ k.kind = .stray) :
    k.blanked = space :=
  if_pos hIdle

theorem blanked_of_not_idle
    (hBusy : ¬ (k.kind = .comment ∨ k.kind = .stray)) :
    k.blanked = k :=
  if_neg hBusy

/- The characters reported as unexpected are the stray ones. -/
theorem isIdle_iff
    (line : Nat) :
    Located.isIdle ⟨line, k⟩ = true ↔
      k.kind = .comment ∨ k.kind = .stray := by
  rw [Located.isIdle, decide_eq_true_eq]
  apply or_congr_right
  unfold Located.error?
  cases k.kind <;> simp

theorem text_blanked
    (line : Nat) :
    Located.blanked ⟨line, k⟩ = k.blanked.text := by
  by_cases hIdle : k.kind = .comment ∨ k.kind = .stray
  · rw [Located.blanked, if_pos ((isIdle_iff line).mpr hIdle),
      blanked_of_idle hIdle]
    rfl
  · rw [Located.blanked,
      if_neg (mt (isIdle_iff line).mp hIdle),
      blanked_of_not_idle hIdle]

/- The text with the spaces is that of the new chunks. -/
theorem flatMap_blanked
    (line : Nat)
    (chunks : List Chunk) :
    (Located.ofChunks line chunks).flatMap
        Located.blanked =
      (chunks.map blanked).flatMap text := by
  induction chunks generalizing line with
  | nil =>
      rfl
  | cons k rest ih =>
      rw [Located.ofChunks, List.flatMap_cons, text_blanked,
        ih, List.map_cons, List.flatMap_cons]

end Chunk

end OcScript

------------------------------------------------------------
-- No Lexeme Goes On over a Space
------------------------------------------------------------

namespace OcScript

/- Only three kinds of lexemes have spaces in them. -/
theorem Lexeme.space_not_mem
    {kind : ChunkKind}
    {text : List Char}
    (hLexeme : Lexeme kind text)
    (hKind :
      kind ≠ .blank ∧ kind ≠ .comment ∧ kind ≠ .string) :
    ' ' ∉ text := by
  have hDigit : ¬ IsDigit ' ' := by
    decide
  have hPart : ¬ (IsLetter ' ' ∨ IsDigit ' ') := by
    decide
  have hNone :
      ∀ {digits : List Char},
        (∀ d ∈ digits, IsDigit d) → ' ' ∉ digits :=
    fun hDigits hMem => hDigit (hDigits _ hMem)
  cases hLexeme with
  | blank hBlank =>
      exact absurd rfl hKind.1
  | comment hLine =>
      exact absurd rfl hKind.2.1
  | symbol s =>
      cases s <;> decide
  | string hContent =>
      exact absurd rfl hKind.2.2
  | whole hFirst hDigits =>
      exact
        hNone (List.forall_mem_cons.mpr ⟨hFirst, hDigits⟩)
  | fraction hFirst hDigits hPoint hDecimals =>
      simp only [List.mem_cons, List.mem_append, not_or]
      refine ⟨?_, hNone hDigits, by decide, ?_,
        hNone hDecimals⟩
      · rintro rfl
        exact hDigit hFirst
      · rintro rfl
        exact hDigit hPoint
  | word hFirst hRest =>
      rw [List.mem_cons, not_or]
      refine ⟨?_, fun hMem => hPart (hRest _ hMem)⟩
      rintro rfl
      exact hPart (.inl hFirst)

namespace Chunk

variable {k : Chunk}

/- Up to its first space, a new text goes as the old one. -/
theorem isPrefix_of_blanked
    {chunks : List Chunk}
    {front : List Char}
    (hPrefix :
      front <+: (chunks.map blanked).flatMap text)
    (hSpace : ' ' ∉ front) :
    front <+: chunks.flatMap text := by
  induction chunks generalizing front with
  | nil =>
      exact hPrefix
  | cons k rest ih =>
      rw [List.map_cons, List.flatMap_cons] at hPrefix
      rw [List.flatMap_cons]
      by_cases hIdle : k.kind = .comment ∨ k.kind = .stray
      · rw [blanked_of_idle hIdle] at hPrefix
        cases front with
        | nil =>
            exact List.nil_prefix
        | cons c front =>
            have hSame :=
              (List.cons_prefix_cons.mp hPrefix).1
            rw [hSame] at hSpace
            exact absurd (List.mem_cons_self ..) hSpace
      · rw [blanked_of_not_idle hIdle] at hPrefix
        rcases List.prefix_or_prefix_of_prefix hPrefix
            (List.prefix_append k.text _) with
          hInside | ⟨front, rfl⟩
        · exact hInside.trans (List.prefix_append _ _)
        · rw [List.prefix_append_right_inj] at hPrefix ⊢
          apply ih hPrefix
          intro hMem
          exact hSpace (List.mem_append_right _ hMem)

/- A chunk that starts as a comment does is one. -/
theorem kind_of_slashes
    (hLexeme : Lexeme k.kind k.text)
    (hSlashes : ['/', '/'] <+: k.text) :
    k.kind = .comment := by
  rcases hSlashes with ⟨body, hBody⟩
  rw [← hBody] at hLexeme
  rw [← hLexeme.kind_first]
  rfl

/- No string goes on behind a lexeme. -/
theorem length_le_of_string
    (hLexeme : Lexeme k.kind k.text)
    {string : List Char}
    (hString : Lexeme .string string)
    (hPrefix : k.text <+: string) :
    string.length ≤ k.text.length := by
  cases hString with
  | @string content hContent =>
      rcases k with ⟨kind, c, tail⟩
      rcases hPrefix with ⟨after, hText⟩
      obtain rfl : c = '"' := (List.cons.inj hText).1
      have hTail : tail ++ after = content ++ ['"'] :=
        (List.cons.inj hText).2
      have hKind : (quoted tail).kind = kind :=
        hLexeme.kind_first
      rcases quoted_cases tail with
        ⟨-, hString⟩ | ⟨-, hOpen⟩
      · rw [hString] at hKind
        subst hKind
        generalize hSame : text _ = closed at hLexeme
        cases hLexeme with
        | @string inner hInner =>
            obtain rfl : tail = inner ++ ['"'] :=
              (List.cons.inj hSame).2
            have hFirst :
                first '"' (content ++ ['"']) =
                  ⟨.string, '"', inner ++ ['"']⟩ := by
              rw [← hTail, List.append_assoc]
              exact quoted_append_quote hInner after
            have hLength :=
              length_le_of_lexeme (.string hContent)
                (List.prefix_refl _)
            rwa [hFirst] at hLength
      · rw [hOpen] at hKind
        subst hKind
        cases hLexeme

section

variable
    {after other : List Char}
    (hLongest :
      ∀ kind text,
        Lexeme kind text →
        text <+: k.text ++ after →
        text.length ≤ k.text.length)
    (hAlike :
      ∀ front,
        front <+: other → ' ' ∉ front → front <+: after)

include hLongest hAlike

/-
  If what follows a longest lexeme is changed from a space
  on, no lexeme without spaces becomes longer.
-/
theorem length_le_of_space_not_mem
    {kind : ChunkKind}
    {text : List Char}
    (hLexeme : Lexeme kind text)
    (hSpace : ' ' ∉ text)
    (hPrefix : text <+: k.text ++ other) :
    text.length ≤ k.text.length := by
  rcases List.prefix_or_prefix_of_prefix hPrefix
      (List.prefix_append k.text _) with
    hInside | ⟨front, rfl⟩
  · exact hInside.length_le
  · apply hLongest kind _ hLexeme
    rw [List.prefix_append_right_inj] at hPrefix ⊢
    apply hAlike front hPrefix
    intro hMem
    exact hSpace (List.mem_append_right _ hMem)

/- Nor does any other, behind a lexeme that is no comment. -/
theorem length_le_of_alike
    (hLexeme : Lexeme k.kind k.text)
    (hKind : k.kind ≠ .comment)
    {kind : ChunkKind}
    {text : List Char}
    (hOther : Lexeme kind text)
    (hPrefix : text <+: k.text ++ other) :
    text.length ≤ k.text.length := by
  have hFront : k.text <+: k.text ++ other :=
    List.prefix_append _ _
  by_cases hPlain :
      kind ≠ .blank ∧ kind ≠ .comment ∧ kind ≠ .string
  · exact
      length_le_of_space_not_mem hLongest hAlike hOther
        (hOther.space_not_mem hPlain) hPrefix
  cases hOther with
  | blank hBlank =>
      exact Nat.le_add_left 1 _
  | comment hLine =>
      have hSlashes : ['/', '/'] <+: k.text ++ other :=
        (List.prefix_append ['/', '/'] _).trans hPrefix
      have hLength :=
        length_le_of_space_not_mem hLongest hAlike
          (.comment (List.not_mem_nil (a := '\n')))
          (by decide) hSlashes
      have hStart :=
        List.prefix_of_prefix_length_le hSlashes hFront
          hLength
      exact absurd (kind_of_slashes hLexeme hStart) hKind
  | string hContent =>
      rcases List.prefix_or_prefix_of_prefix hPrefix
          hFront with
        hInside | hBeyond
      · exact hInside.length_le
      · exact
          length_le_of_string hLexeme (.string hContent)
            hBeyond
  | symbol | whole | fraction | word =>
      exact absurd (by simp) hPlain

end

/- With spaces in place, the cuts are where they were. -/
theorem munched_blanked
    {source : List Char}
    {chunks : List Chunk}
    (hMunched : Munched source chunks) :
    Munched ((chunks.map blanked).flatMap text)
      (chunks.map blanked) := by
  induction hMunched with
  | nil =>
      exact .nil
  | @cons k rest chunks hFirst hRest ih =>
      rw [List.map_cons, List.flatMap_cons]
      refine .cons ?_ ih
      by_cases hIdle : k.kind = .comment ∨ k.kind = .stray
      · rw [blanked_of_idle hIdle]
        exact munches_first ' ' _
      · rw [blanked_of_not_idle hIdle]
        rw [not_or] at hIdle
        by_cases hOpen : k.kind = .unclosed
        · have hAll := hFirst.text_of_unclosed hOpen
          rw [List.self_eq_append_right] at hAll
          subst hAll
          cases hRest
          exact hFirst
        rw [← hRest.flatMap_text] at hFirst
        cases hFirst with
        | lexeme hLexeme hPrefix hLongest =>
            refine .lexeme hLexeme (List.prefix_append _ _) ?_
            intro kind other hOther hStart
            exact
              length_le_of_alike hLongest
                (fun front => isPrefix_of_blanked) hLexeme
                hIdle.1 hOther hStart
        | unclosed hNone hSource =>
            exact absurd rfl hOpen
        | stray hNone hSource hQuote =>
            exact absurd rfl hIdle.2

end Chunk

end OcScript

------------------------------------------------------------
-- Scans with Spaces in Place
------------------------------------------------------------

namespace OcScript

namespace Chunk

variable {k : Chunk}

/- A space takes no line more or less. -/
theorem Munches.newlines_blanked
    {text : List Char}
    (hMunches : Munches text k) :
    k.blanked.newlines = k.newlines := by
  by_cases hIdle : k.kind = .comment ∨ k.kind = .stray
  · rw [blanked_of_idle hIdle]
    symm
    rcases hIdle with hComment | hStray
    · cases hMunches with
      | lexeme hLexeme hPrefix hLongest =>
          rw [hComment] at hLexeme
          generalize hText : k.text = comment at hLexeme
          cases hLexeme with
          | comment hLine =>
              rw [newlines, hText]
              apply List.count_eq_zero.mpr
              simpa using hLine
      | unclosed hNone hText =>
          cases hComment
      | stray hNone hText hQuote =>
          cases hComment
    · exact hMunches.newlines_of_stray hStray
  · rw [blanked_of_not_idle hIdle]

theorem newlines_blanked
    {source : List Char}
    {chunks : List Chunk}
    (hMunched : Munched source chunks) :
    ∀ k ∈ chunks, k.blanked.newlines = k.newlines := by
  induction hMunched with
  | nil =>
      exact List.forall_mem_nil _
  | cons hFirst hRest ih =>
      exact
        List.forall_mem_cons.mpr ⟨hFirst.newlines_blanked, ih⟩

/- A comment or a stray character makes no token. -/
theorem token?_blanked
    (table : KeywordTable)
    (line : Nat)
    (k : Chunk) :
    Located.token? table ⟨line, k.blanked⟩ =
      Located.token? table ⟨line, k⟩ := by
  by_cases hIdle : k.kind = .comment ∨ k.kind = .stray
  · rw [blanked_of_idle hIdle]
    rcases hIdle with hKind | hKind <;>
      simp [Located.token?, Located.kind?, space, hKind]
  · rw [blanked_of_not_idle hIdle]

/- Only the report of an open string is kept. -/
theorem error?_blanked
    (line : Nat)
    (k : Chunk) :
    Located.error? ⟨line, k.blanked⟩ =
      (Located.error? ⟨line, k⟩).filter fun e =>
        e.cause = .unterminatedString := by
  by_cases hIdle : k.kind = .comment ∨ k.kind = .stray
  · rw [blanked_of_idle hIdle]
    rcases hIdle with hKind | hKind <;>
      simp [Located.error?, space, hKind, Option.filter]
  · rw [blanked_of_not_idle hIdle]
    unfold Located.error?
    cases hKind : k.kind with
    | stray =>
        exact absurd (.inr hKind) hIdle
    | unclosed =>
        rfl
    | blank | comment | symbol | string | number | word =>
        rfl

/- A string that is never closed is the last chunk. -/
theorem length_errors_blanked_le
    {source : List Char}
    {chunks : List Chunk}
    (hMunched : Munched source chunks)
    (line : Nat) :
    ((Located.ofChunks line (chunks.map blanked)).filterMap
        Located.error?).length ≤
      1 := by
  induction hMunched generalizing line with
  | nil =>
      exact Nat.zero_le 1
  | @cons k rest chunks hFirst hRest ih =>
      rw [List.map_cons, Located.ofChunks,
        filterMap_cons_append, error?_blanked]
      by_cases hOpen : k.kind = .unclosed
      · have hAll := hFirst.text_of_unclosed hOpen
        rw [List.self_eq_append_right] at hAll
        subst hAll
        cases hRest
        rw [List.map_nil, Located.ofChunks,
          List.filterMap_nil, List.append_nil]
        exact Option.length_toList_le
      · have hNone :
            (Located.error?
                ⟨line + k.blanked.newlines, k⟩).filter
                  (fun e => e.cause = .unterminatedString) =
              none := by
          unfold Located.error?
          cases hKind : k.kind with
          | unclosed =>
              exact absurd hKind hOpen
          | blank | comment | symbol | string | number
            | word | stray =>
              rfl
        rw [hNone]
        exact ih _

end Chunk

/-
  Comments and stray characters are worth as much as spaces.
  Cut a source as the scanner does, and put a space for each
  comment and for each character reported as unexpected.
  The tokens of the new source are those of the old one, and
  its only report, if there is one, is that of the string
  that is never closed.
-/
theorem comments_and_strays_are_blanks
    (table : KeywordTable)
    (source : String) :
    ∃ chunks,
      Chunk.Munched source.toList chunks ∧
        (scan table source).errors =
          (Located.ofChunks 1 chunks).filterMap
            Located.error? ∧
        let blankedSource :=
          String.ofList
            ((Located.ofChunks 1 chunks).flatMap
              Located.blanked)
        (scan table blankedSource).tokens =
            (scan table source).tokens ∧
          (scan table blankedSource).errors =
            (scan table source).errors.filter
              (fun e => e.cause = .unterminatedString) ∧
          (scan table blankedSource).errors.length ≤ 1 := by
  have hMunched :
      Chunk.Munched source.toList
        (Chunk.ofText source.toList) :=
    Chunk.munched_iff.mpr rfl
  refine ⟨_, hMunched, rfl, ?_⟩
  intro blankedSource
  have hChunks :
      Chunk.ofText blankedSource.toList =
        (Chunk.ofText source.toList).map Chunk.blanked := by
    rw [String.toList_ofList, Chunk.flatMap_blanked]
    exact Chunk.munched_iff.mp (Chunk.munched_blanked hMunched)
  have hLocated :
      Located.ofChunks 1 (Chunk.ofText blankedSource.toList) =
        (Located.ofChunks 1
          (Chunk.ofText source.toList)).map fun l =>
            ⟨l.line, l.chunk.blanked⟩ := by
    rw [hChunks]
    exact
      Located.ofChunks_map (Chunk.newlines_blanked hMunched) 1
  have hNewlines :
      blankedSource.toList.count '\n' =
        source.toList.count '\n' := by
    rw [← Chunk.flatMap_text_ofText source.toList,
      ← Chunk.flatMap_text_ofText blankedSource.toList,
      hChunks, List.count_flatMap, List.count_flatMap,
      List.map_map]
    congr 1
    apply List.map_congr_left
    exact Chunk.newlines_blanked hMunched
  refine ⟨?_, ?_, ?_⟩
  · rw [tokens_scan, tokens_scan, body_scan, body_scan,
      hLocated, hNewlines, List.filterMap_map]
    congr 1
    apply List.filterMap_congr
    intro l _
    exact Chunk.token?_blanked table l.line l.chunk
  · simp only [scan]
    rw [hLocated, List.filterMap_map, List.filter_filterMap]
    apply List.filterMap_congr
    intro l _
    exact Chunk.error?_blanked l.line l.chunk
  · simp only [scan]
    rw [hChunks]
    exact Chunk.length_errors_blanked_le hMunched 1

/- The names beside a comment and a stray character stay. -/
example :
    let names : List Token :=
      [⟨.identifier, "a", 1⟩, ⟨.identifier, "c", 2⟩,
        Token.atEnd 2]
    scan .standard "a // b\n?c" =
        ⟨names, [⟨2, .unexpectedCharacter⟩]⟩ ∧
      scan .standard "a  \n c" = ⟨names, []⟩ := by
  decide +kernel

end OcScript
