import OcScript.Scan

/-
  This file proves that a newline between two texts keeps
  their scans apart.

  No chunk reaches over a newline but a string, and a string
  that is closed before the newline has already ended.  So
  the chunks of the joined text are those of both texts,
  with a blank between them, and the tokens of the second
  text are found again, further down.

  Key definitions include:
    * `OcScript.Token.moved`
    * `OcScript.Scanned.body`
    * `OcScript.Scanned.Closed`

  Key theorems include:
    * `OcScript.Chunk.first_append_newline`
    * `OcScript.Chunk.ofText_append_newline`
    * `OcScript.Located.ofChunks_append`
    * `OcScript.tokens_scan_append_newline`
    * `OcScript.errors_scan_append_newline`
    * `OcScript.scan_append_newline`
-/

------------------------------------------------------------
-- Runs of Characters Before a Newline
------------------------------------------------------------

namespace OcScript

namespace Chunk

/- A run that stops at newlines does not see past one. -/
theorem takeWhile_append_newline
    {p : Char → Bool}
    (hStops : p '\n' = false)
    (text after : List Char) :
    (text ++ '\n' :: after).takeWhile p =
      text.takeWhile p := by
  induction text with
  | nil =>
      simp [hStops]
  | cons c rest ih =>
      simp only [List.cons_append, List.takeWhile_cons, ih]

/- What is left after such a run still has its newline. -/
theorem dropWhile_append_newline
    {p : Char → Bool}
    (hStops : p '\n' = false)
    (text after : List Char) :
    (text ++ '\n' :: after).dropWhile p =
      text.dropWhile p ++ '\n' :: after := by
  induction text with
  | nil =>
      simp [hStops]
  | cons c rest ih =>
      rw [List.cons_append, List.dropWhile_cons,
        List.dropWhile_cons, ih]
      split
      · rfl
      · rfl

/- A word without newlines is found before one or not. -/
theorem isPrefixOf_append_newline
    {word : List Char}
    (hWord : '\n' ∉ word)
    (text after : List Char) :
    word.isPrefixOf (text ++ '\n' :: after) =
      word.isPrefixOf text := by
  induction word generalizing text with
  | nil =>
      simp only [List.isPrefixOf]
  | cons letter word ih =>
      rw [List.mem_cons, not_or] at hWord
      cases text with
      | nil =>
          have hLetter : (letter == '\n') = false :=
            beq_false_of_ne (Ne.symm hWord.1)
          simp only [List.nil_append, List.isPrefixOf,
            hLetter, Bool.false_and]
      | cons c rest =>
          simp only [List.cons_append, List.isPrefixOf,
            ih hWord.2 rest]

end Chunk

end OcScript

------------------------------------------------------------
-- The First Chunk Before a Newline
------------------------------------------------------------

namespace OcScript

namespace Symbol

/- No symbol is written with a newline. -/
theorem newline_not_mem_spelling
    (symbol : Symbol) :
    '\n' ∉ symbol.spelling := by
  cases symbol <;> decide

/- The symbol a text starts with is not changed. -/
theorem startOf?_append_newline
    (text after : List Char) :
    startOf? (text ++ '\n' :: after) = startOf? text := by
  unfold startOf?
  congr 1
  funext symbol
  exact
    Chunk.isPrefixOf_append_newline
      (newline_not_mem_spelling symbol) text after

end Symbol

namespace Chunk

/- A number ends at a newline at the latest. -/
theorem numberTail_append_newline
    (rest after : List Char) :
    numberTail (rest ++ '\n' :: after) =
      numberTail rest := by
  have hDigit : Char.isDigit '\n' = false := by
    decide
  unfold numberTail
  rw [takeWhile_append_newline hDigit,
    dropWhile_append_newline hDigit]
  cases rest.dropWhile Char.isDigit with
  | nil =>
      rfl
  | cons point fraction =>
      by_cases hPoint : point = '.'
      · subst hPoint
        simp only [List.cons_append,
          takeWhile_append_newline hDigit]
      · rw [List.cons_append]
        split
        · rename_i hCons
          cases hCons
          exact absurd rfl hPoint
        · split
          · rename_i hCons
            cases hCons
            exact absurd rfl hPoint
          · rfl

/- A closed string goes on as far as before. -/
theorem quoted_append
    {rest : List Char}
    (hClosed : (quoted rest).kind ≠ .unclosed)
    (after : List Char) :
    quoted (rest ++ after) = quoted rest := by
  have hSplit :=
    List.takeWhile_append_dropWhile
      (p := fun c => decide (c ≠ '"')) (l := rest)
  unfold quoted at hClosed ⊢
  rw [List.takeWhile_append, List.dropWhile_append]
  cases hDrop :
      rest.dropWhile (fun c => decide (c ≠ '"')) with
  | nil =>
      rw [hDrop] at hClosed
      exact absurd rfl hClosed
  | cons close later =>
      -- The closing quote makes the content a proper part.
      have hShort :
          (rest.takeWhile
              (fun c => decide (c ≠ '"'))).length ≠
            rest.length := by
        rw [hDrop] at hSplit
        intro hLength
        have hSum := congrArg List.length hSplit
        simp only [List.length_append, List.length_cons]
          at hSum
        omega
      rw [if_neg hShort]
      rfl

/- The first chunk, if closed, ends before the newline. -/
theorem first_append_newline
    {c : Char}
    {rest : List Char}
    (hClosed : (first c rest).kind ≠ .unclosed)
    (after : List Char) :
    first c (rest ++ '\n' :: after) = first c rest := by
  have hComment :
      ['/', '/'].isPrefixOf (c :: (rest ++ '\n' :: after)) =
        ['/', '/'].isPrefixOf (c :: rest) :=
    isPrefixOf_append_newline (by decide) (c :: rest) after
  have hSymbol :
      Symbol.startOf? (c :: (rest ++ '\n' :: after)) =
        Symbol.startOf? (c :: rest) :=
    Symbol.startOf?_append_newline (c :: rest) after
  have hWord : isWordPart '\n' = false := by
    decide
  have hLine : decide ('\n' ≠ '\n') = false := by
    decide
  unfold first at hClosed ⊢
  rw [hComment, hSymbol, numberTail_append_newline,
    takeWhile_append_newline hWord,
    takeWhile_append_newline hLine]
  by_cases hBlank : isBlank c = true
  · rw [if_pos hBlank, if_pos hBlank]
  · rw [if_neg hBlank] at hClosed
    rw [if_neg hBlank, if_neg hBlank]
    by_cases hQuote : c = '"'
    · rw [if_pos hQuote] at hClosed
      rw [if_pos hQuote, if_pos hQuote,
        quoted_append hClosed]
    · rw [if_neg hQuote, if_neg hQuote]

end Chunk

end OcScript

------------------------------------------------------------
-- The Chunks Around a Newline
------------------------------------------------------------

namespace OcScript

namespace Chunk

/- The chunk of a newline between two texts. -/
def lineBreak : Chunk :=
  ⟨.blank, '\n', []⟩

/- A text that starts with a newline. -/
theorem ofText_newline
    (after : List Char) :
    ofText ('\n' :: after) = lineBreak :: ofText after := by
  rw [ofText]
  rfl

/-
  A newline after a text without unclosed strings separates
  its chunks from those of what follows.
-/
theorem ofText_append_newline
    {text : List Char}
    (hClosed : ∀ k ∈ ofText text, k.kind ≠ .unclosed)
    (after : List Char) :
    ofText (text ++ '\n' :: after) =
      ofText text ++ lineBreak :: ofText after := by
  fun_induction ofText text with
  | case1 =>
      exact ofText_newline after
  | case2 c rest k ih =>
      rw [List.forall_mem_cons] at hClosed
      have hFirst :
          first c (rest ++ '\n' :: after) = k :=
        first_append_newline hClosed.1 after
      have hDrop :
          (rest ++ '\n' :: after).drop k.tail.length =
            rest.drop k.tail.length ++ '\n' :: after :=
        List.drop_append_of_le_length
          (tail_first_isPrefix c rest).length_le
      rw [List.cons_append, ofText, hFirst, hDrop,
        ih hClosed.2, List.cons_append]

end Chunk

end OcScript

------------------------------------------------------------
-- Lines Further Down
------------------------------------------------------------

namespace OcScript

namespace Token

/- The token as it is found `n` lines further down. -/
def moved
    (n : Nat)
    (t : Token) :
    Token :=
  { t with line := t.line + n }

@[simp] theorem kind_moved
    (n : Nat)
    (t : Token) :
    (t.moved n).kind = t.kind :=
  rfl

@[simp] theorem lexeme_moved
    (n : Nat)
    (t : Token) :
    (t.moved n).lexeme = t.lexeme :=
  rfl

end Token

namespace ScanError

/- The error as it is found `n` lines further down. -/
def moved
    (n : Nat)
    (e : ScanError) :
    ScanError :=
  { e with line := e.line + n }

end ScanError

namespace Located

/- The chunk as it is found `n` lines further down. -/
def moved
    (n : Nat)
    (l : Located) :
    Located :=
  { l with line := l.line + n }

/- Chunks that start further down end further down. -/
theorem ofChunks_add
    (line n : Nat)
    (chunks : List Chunk) :
    ofChunks (line + n) chunks =
      (ofChunks line chunks).map (moved n) := by
  induction chunks generalizing line with
  | nil =>
      rfl
  | cons k rest ih =>
      have hLast :
          line + n + k.newlines = line + k.newlines + n :=
        Nat.add_right_comm line n k.newlines
      simp only [ofChunks, List.map_cons, moved, hLast, ih]

/-
  Chunks after others start on the line that the text of
  the others ends on.
-/
theorem ofChunks_append
    (line : Nat)
    (front back : List Chunk) :
    ofChunks line (front ++ back) =
      ofChunks line front ++
        ofChunks
          (line + (front.flatMap Chunk.text).count '\n')
          back := by
  induction front generalizing line with
  | nil =>
      rfl
  | cons k rest ih =>
      have hCount :
          ((k :: rest).flatMap Chunk.text).count '\n' =
            k.newlines +
              (rest.flatMap Chunk.text).count '\n' := by
        rw [List.flatMap_cons, List.count_append]
        rfl
      rw [List.cons_append, ofChunks, ofChunks, ih, hCount,
        ← Nat.add_assoc, List.cons_append]

/- The chunks of a text end on the lines of the text. -/
theorem line_bounds_of_mem_ofChunks
    {line : Nat}
    {chunks : List Chunk}
    {l : Located}
    (hMem : l ∈ ofChunks line chunks) :
    line ≤ l.line ∧
      l.line ≤
        line + (chunks.flatMap Chunk.text).count '\n' := by
  induction chunks generalizing line with
  | nil =>
      cases hMem
  | cons k rest ih =>
      rw [List.flatMap_cons, List.count_append]
      rcases List.mem_cons.mp hMem with rfl | hMem
      · simp only [Chunk.newlines]
        omega
      · have hRest := ih hMem
        simp only [Chunk.newlines] at hRest
        omega

/- No chunk is lost when lines are given. -/
theorem map_chunk_ofChunks
    (line : Nat)
    (chunks : List Chunk) :
    (ofChunks line chunks).map Located.chunk = chunks := by
  induction chunks generalizing line with
  | nil =>
      rfl
  | cons k rest ih =>
      simp only [ofChunks, List.map_cons, ih]

/- Chunks of as many lines are found on the same lines. -/
theorem ofChunks_map
    {g : Chunk → Chunk}
    {chunks : List Chunk}
    (hLines : ∀ k ∈ chunks, (g k).newlines = k.newlines)
    (line : Nat) :
    ofChunks line (chunks.map g) =
      (ofChunks line chunks).map fun l =>
        ⟨l.line, g l.chunk⟩ := by
  induction chunks generalizing line with
  | nil =>
      rfl
  | cons k rest ih =>
      rw [List.forall_mem_cons] at hLines
      simp only [List.map_cons, ofChunks, hLines.1,
        ih hLines.2]

/- A moved chunk makes the token it made, moved. -/
theorem token?_moved
    (table : KeywordTable)
    (n : Nat)
    (l : Located) :
    token? table (l.moved n) =
      (token? table l).map (Token.moved n) := by
  unfold token?
  rw [Option.map_map]
  rfl

/- A moved chunk makes the error it made, moved. -/
theorem error?_moved
    (n : Nat)
    (l : Located) :
    error? (l.moved n) =
      (error? l).map (ScanError.moved n) := by
  unfold error? moved
  cases l.chunk.kind <;> rfl

/- A chunk never makes the end marker. -/
theorem isEof_of_token?
    {table : KeywordTable}
    {l : Located}
    {t : Token}
    (hToken : token? table l = some t) :
    t.isEof = false := by
  unfold token? at hToken
  rw [Option.map_eq_some_iff] at hToken
  rcases hToken with ⟨kind, hKind, rfl⟩
  have hOther : kind ≠ .eof := by
    rintro rfl
    unfold kind? KeywordTable.kindOf at hKind
    grind
  exact decide_eq_false hOther

end Located

end OcScript

------------------------------------------------------------
-- Scans Around a Newline
------------------------------------------------------------

namespace OcScript

namespace Scanned

/- The tokens before the one that marks the end. -/
def body
    (scanned : Scanned) :
    List Token :=
  scanned.tokens.dropLast

end Scanned

/- The body holds the tokens that the chunks make. -/
theorem body_scan
    (table : KeywordTable)
    (source : String) :
    (scan table source).body =
      (Located.ofChunks 1
        (Chunk.ofText source.toList)).filterMap
          (Located.token? table) :=
  List.dropLast_concat

/- A scan is its body and the end marker. -/
theorem tokens_scan
    (table : KeywordTable)
    (source : String) :
    (scan table source).tokens =
      (scan table source).body ++
        [Token.atEnd (1 + source.toList.count '\n')] := by
  rw [body_scan]
  rfl

/- No token of the body marks the end. -/
theorem isEof_of_mem_body
    {table : KeywordTable}
    {source : String}
    {t : Token}
    (hMem : t ∈ (scan table source).body) :
    t.isEof = false := by
  rw [body_scan, List.mem_filterMap] at hMem
  rcases hMem with ⟨l, -, hToken⟩
  exact Located.isEof_of_token? hToken

namespace Scanned

/- Every string of the source was closed. -/
def Closed
    (scanned : Scanned) :
    Prop :=
  ∀ e ∈ scanned.errors, e.cause ≠ .unterminatedString

/- A scan without errors has no unclosed string. -/
theorem closed_of_errors_eq_nil
    {scanned : Scanned}
    (hClean : scanned.errors = []) :
    scanned.Closed := by
  intro e hMem
  rw [hClean] at hMem
  cases hMem

end Scanned

/- An unclosed chunk would have been reported. -/
theorem kind_ne_unclosed_of_closed
    {table : KeywordTable}
    {source : String}
    (hClosed : (scan table source).Closed) :
    ∀ k ∈ Chunk.ofText source.toList,
      k.kind ≠ .unclosed := by
  intro k hMem hUnclosed
  rw [← Located.map_chunk_ofChunks 1
    (Chunk.ofText source.toList), List.mem_map] at hMem
  rcases hMem with ⟨l, hLocated, rfl⟩
  have hError :
      Located.error? l =
        some ⟨l.line, .unterminatedString⟩ := by
    unfold Located.error?
    rw [hUnclosed]
  have hReported :
      ⟨l.line, .unterminatedString⟩ ∈
        (scan table source).errors :=
    List.mem_filterMap.mpr ⟨l, hLocated, hError⟩
  exact hClosed _ hReported rfl

/- The text of two sources with a newline between them. -/
theorem toList_append_newline
    (front back : String) :
    (front ++ "\n" ++ back).toList =
      front.toList ++ '\n' :: back.toList := by
  rw [String.toList_append, String.toList_append,
    List.append_assoc]
  rfl

/-
  The chunks of a source whose strings are closed, a
  newline, and a second source.
-/
theorem ofChunks_append_newline
    {table : KeywordTable}
    {front : String}
    (hClosed : (scan table front).Closed)
    (back : String) :
    Located.ofChunks 1
        (Chunk.ofText (front ++ "\n" ++ back).toList) =
      Located.ofChunks 1 (Chunk.ofText front.toList) ++
        ⟨1 + (front.toList.count '\n' + 1),
          Chunk.lineBreak⟩ ::
        (Located.ofChunks 1
          (Chunk.ofText back.toList)).map
            (Located.moved (front.toList.count '\n' + 1)) := by
  rw [toList_append_newline,
    Chunk.ofText_append_newline
      (kind_ne_unclosed_of_closed hClosed),
    Located.ofChunks_append, Chunk.flatMap_text_ofText,
    Located.ofChunks, ← Located.ofChunks_add]
  rfl

/- The tokens around a newline are those of both sources. -/
theorem tokens_scan_append_newline
    {table : KeywordTable}
    {front : String}
    (hClosed : (scan table front).Closed)
    (back : String) :
    (scan table (front ++ "\n" ++ back)).tokens =
      (scan table front).body ++
        (scan table back).tokens.map
          (Token.moved (front.toList.count '\n' + 1)) := by
  have hEnd :
      Token.atEnd
          (1 + (front ++ "\n" ++ back).toList.count '\n') =
        (Token.atEnd (1 + back.toList.count '\n')).moved
          (front.toList.count '\n' + 1) := by
    have hLine :
        1 + (front ++ "\n" ++ back).toList.count '\n' =
          1 + back.toList.count '\n' +
            (front.toList.count '\n' + 1) := by
      rw [toList_append_newline, List.count_append,
        List.count_cons_self]
      omega
    rw [hLine]
    rfl
  have hBreak :
      Located.token? table
          ⟨1 + (front.toList.count '\n' + 1),
            Chunk.lineBreak⟩ = none :=
    rfl
  simp only [tokens_scan, body_scan, hEnd,
    ofChunks_append_newline hClosed, List.filterMap_append,
    List.filterMap_cons_none hBreak, List.filterMap_map,
    Function.comp_def, Located.token?_moved,
    List.map_append, List.map_filterMap, List.map_cons,
    List.map_nil, List.append_assoc]

/- The errors around a newline are those of both sources. -/
theorem errors_scan_append_newline
    {table : KeywordTable}
    {front : String}
    (hClosed : (scan table front).Closed)
    (back : String) :
    (scan table (front ++ "\n" ++ back)).errors =
      (scan table front).errors ++
        (scan table back).errors.map
          (ScanError.moved
            (front.toList.count '\n' + 1)) := by
  have hBreak :
      Located.error?
          ⟨1 + (front.toList.count '\n' + 1),
            Chunk.lineBreak⟩ = none :=
    rfl
  simp only [scan, ofChunks_append_newline hClosed,
    List.filterMap_append, List.filterMap_cons_none hBreak,
    List.filterMap_map, Function.comp_def,
    Located.error?_moved, List.map_filterMap]

/-
  Scanning splits at a newline.  A first text that leaves no
  string open is scanned as if it stood alone, but for the
  end marker; the scan of a second text follows, further
  down by the lines of the first.
-/
theorem scan_append_newline
    (table : KeywordTable)
    {front : String}
    (hClosed :
      ∀ e ∈ (scan table front).errors,
        e.cause.message ≠ "Unterminated string.")
    (back : String) :
    let n := 1 + front.toList.count '\n'
    (scan table front).tokens =
        (scan table front).body ++ [⟨.eof, "", n⟩] ∧
      scan table (front ++ "\n" ++ back) =
        { tokens :=
            (scan table front).body ++
              (scan table back).tokens.map (Token.moved n)
          errors :=
            (scan table front).errors ++
              (scan table back).errors.map
                (ScanError.moved n) } := by
  have hStrings : (scan table front).Closed := by
    intro e hMem hCause
    apply hClosed e hMem
    rw [hCause]
    rfl
  have hTokens := tokens_scan_append_newline hStrings back
  have hErrors := errors_scan_append_newline hStrings back
  refine ⟨tokens_scan table front, ?_⟩
  rw [Nat.add_comm 1, ← hTokens, ← hErrors]

/-
  The first text ends in a comment, after a string over two
  lines and a stray character; the second one starts with a
  slash and leaves a string open.
-/
theorem scan_append_newline_commentAndSlash :
    let front := "a \"b\nc\" @ // d"
    let back := "/ e\n\"f"
    let scanned := scan .standard (front ++ "\n" ++ back)
    scanned.tokens.map Token.lexeme =
        ["a", "\"b\nc\"", "/", "e", ""] ∧
      scanned.tokens.map Token.line = [1, 2, 3, 3, 4] ∧
      scanned.errors =
        [⟨2, .unexpectedCharacter⟩,
          ⟨4, .unterminatedString⟩] := by
  have hClosed :
      ∀ e ∈ (scan .standard "a \"b\nc\" @ // d").errors,
        e.cause.message ≠ "Unterminated string." := by
    decide +kernel
  have hSplit :=
    (scan_append_newline .standard hClosed "/ e\n\"f").2
  dsimp only
  rw [hSplit]
  decide +kernel

end OcScript
