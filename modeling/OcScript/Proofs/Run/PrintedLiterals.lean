import OcScript.Proofs.Number.ReadBack
import OcScript.Proofs.Run.ErrorPlaces
import OcScript.Proofs.Run.Sessions
import OcScript.Proofs.Scan.Rescan
import OcScript.Proofs.Scan.Respelled

/-
  This file proves that printed literals read back: a value
  written as a literal and printed gives its own text.

  The source of a literal is cut into one lexeme, or two if
  there is a minus, whatever a string may hold.  The lexemes
  write an expression that evaluates to a value of the same
  text.  Numbers are the ones that were written since their
  texts read back, and a minus is undone by evaluating it.

  Key definitions include:
    * `OcScript.Value.IsDenotable`
    * `OcScript.Value.literal`
    * `OcScript.ReadsAs`

  Key theorems include:
    * `OcScript.readsAs_word`
    * `OcScript.readsAs_string`
    * `OcScript.readsAs_number`
    * `OcScript.readsAs_minus`
    * `OcScript.Run.ends_print`
    * `OcScript.printed_literals_read_back`
-/

------------------------------------------------------------
-- Literals
------------------------------------------------------------

namespace OcScript

namespace Value

/-
  The values that can be written as literals.  A string that
  holds a quote cannot, and neither can infinity or NaN.
-/
def IsDenotable : Value → Prop
| .num x => x.isFinite
| .str s => '"' ∉ s.toList
| .bool _ => True
| .null => True

instance decidableIsDenotable :
    (value : Value) → Decidable value.IsDenotable
| .num x => inferInstanceAs (Decidable (x.isFinite = true))
| .str s => inferInstanceAs (Decidable ('"' ∉ s.toList))
| .bool _ => .isTrue trivial
| .null => .isTrue trivial

/- The literal of a value, in standard spelling. -/
def literal : Value → String
| .num x => numberText x
| .str s => "\"" ++ s ++ "\""
| .bool true => "true"
| .bool false => "fals"
| .null => "nul"

end Value

end OcScript

------------------------------------------------------------
-- Scanning a Printed Literal
------------------------------------------------------------

namespace OcScript

namespace Chunk

/- Chunks that spell tokens make just these tokens. -/
theorem filterMap_spelled
    {table : KeywordTable}
    {tokens : List Token}
    {chunks : List Chunk}
    (hSpells :
      List.Forall₂ (Spells table) tokens chunks)
    (line : Nat) :
    (Located.ofChunks line chunks).filterMap
          (Located.token? table) =
        Token.relined line tokens ∧
      (Located.ofChunks line chunks).filterMap
          Located.error? =
        [] := by
  induction hSpells generalizing line with
  | nil =>
      exact ⟨rfl, rfl⟩
  | @cons t k tokens chunks hFirst hRest ih =>
      have hLine :
          line + k.newlines =
            line + t.lexeme.toList.count '\n' := by
        rw [newlines, hFirst.text]
      rw [Token.relined_cons]
      generalize line + t.lexeme.toList.count '\n' = last
        at hLine ⊢
      simp only [Located.ofChunks, filterMap_cons_append,
        hLine, hFirst.token?_eq last,
        hFirst.denotes.error?_eq last, ih last]
      exact ⟨rfl, rfl⟩

/- The chunk of a semicolon. -/
def semicolon : Chunk :=
  ⟨.symbol .semicolon, ';', []⟩

theorem sealed_semicolon
    (rest : List Char) :
    Sealed (';' :: rest) := by
  intro c hHead
  obtain rfl : ';' = c := Option.some.inj hHead
  decide

theorem ofText_semicolon :
    ofText [';'] = [semicolon] := by
  rw [ofText, ofText.eq_def]
  rfl

end Chunk

/-
  A text in front of a semicolon is scanned and parsed as an
  expression.
-/
structure ReadsAs
    (text : List Char)
    (e : Expr) :
    Prop where
  canonical : e.Canonical
  scanned :
    ∃ tokens chunks,
      Chunk.ofText (text ++ [';']) =
        chunks ++ [Chunk.semicolon] ∧
      List.Forall₂ (Chunk.Spells .standard) tokens chunks ∧
      Writes e.slots (Token.relined 1 tokens)

/- One written token is read as the value it denotes. -/
theorem readsAs_of_written
    {t : Token}
    (hWritten : t.Written .standard)
    {value : Value}
    (hKind : t.kind = value.literalKind) :
    ReadsAs t.lexeme.toList (.literal value) := by
  obtain ⟨k, hSpells⟩ := Chunk.exists_spells hWritten
  refine
    ⟨trivial, [t], [k], ?_, .cons hSpells .nil,
      .cons hKind .nil⟩
  rw [← hSpells.text,
    Chunk.ofText_append_of_sealed hSpells.lexeme
      hSpells.denotes.kind_ne_comment
      (Chunk.sealed_semicolon []),
    Chunk.ofText_semicolon]
  rfl

/- The words of the standard table denote their values. -/
theorem readsAs_word
    {text : List Char}
    {keyword : Keyword}
    (hWord : Lexeme .word text)
    (hEntry :
      KeywordTable.standard[String.ofList text]? =
        some keyword)
    {value : Value}
    (hKind : .keyword keyword = value.literalKind) :
    ReadsAs text (.literal value) := by
  have hReads :=
    readsAs_of_written (.keyword hWord hEntry 1) hKind
  rwa [String.toList_ofList] at hReads

/- Quotes denote what is between them. -/
theorem readsAs_string
    {content : List Char}
    (hContent : '"' ∉ content) :
    ReadsAs ('"' :: (content ++ ['"']))
      (.literal (.str (String.ofList content))) := by
  have hKind :
      TokenKind.string (String.ofList content) =
        (Value.str (String.ofList content)).literalKind :=
    rfl
  have hReads :=
    readsAs_of_written (.string hContent 1) hKind
  rwa [String.toList_ofList] at hReads

/- Numerals denote the numbers nearest to them. -/
theorem readsAs_number
    {text : List Char}
    {d : Decimal}
    (hDenotes : Decimal.Denotes text d) :
    ReadsAs text (.literal (.num d.toFloat)) := by
  have hNumber := Decimal.lexeme_of_denotes hDenotes
  have hKind :
      TokenKind.number (Decimal.ofText text).toFloat =
        (Value.num
          (Decimal.ofText text).toFloat).literalKind :=
    rfl
  have hReads :=
    readsAs_of_written (.number hNumber 1) hKind
  rwa [String.toList_ofList,
    Decimal.ofText_of_denotes hDenotes] at hReads

/- The token of a minus on the first line. -/
def minusToken : Token :=
  ⟨.symbol .minus, "-", 1⟩

/- A minus in front of a numeral changes its sign. -/
theorem readsAs_minus
    {text : List Char}
    {d : Decimal}
    (hDenotes : Decimal.Denotes text d) :
    ReadsAs ('-' :: text)
      (.unary minusToken
        (.literal (.num d.toFloat))) := by
  obtain ⟨c, hHead, hDigit⟩ :=
    Decimal.isDigit_head_of_denotes hDenotes
  obtain ⟨-, tokens, chunks, hChunks, hSpells, hWrites⟩ :=
    readsAs_number hDenotes
  have hMinus :
      Chunk.Spells .standard minusToken
        ⟨.symbol .minus, '-', []⟩ :=
    ⟨rfl, .symbol .minus, .symbol rfl⟩
  have hFirst :
      Chunk.first '-' (text ++ [';']) =
        ⟨.symbol .minus, '-', []⟩ := by
    apply Chunk.first_of_oneCharacter (s := .minus) rfl
    · intro long f hLonger hNext
      rw [Chunk.eq_equals_of_spelling hLonger,
        List.head?_append, hHead] at hNext
      obtain rfl : c = '=' := Option.some.inj hNext
      exact absurd hDigit (by decide)
    · intro hSlash
      cases hSlash
  refine
    ⟨⟨rfl, Nat.zero_le _, trivial⟩, minusToken :: tokens,
      _ :: chunks, ?_, .cons hMinus hSpells, ?_⟩
  · rw [List.cons_append, Chunk.ofText, hFirst,
      List.cons_append, ← hChunks]
    rfl
  · rw [Token.relined_cons]
    exact .cons rfl hWrites

end OcScript

------------------------------------------------------------
-- Running a Print Statement
------------------------------------------------------------

namespace OcScript

/- The keyword of a print statement on the first line. -/
def printToken : Token :=
  ⟨.keyword .printWord, "est", 1⟩

/- The chunk of that keyword. -/
def printChunk : Chunk :=
  ⟨.word, 'e', ['s', 't']⟩

theorem spells_printToken :
    Chunk.Spells .standard printToken printChunk :=
  ⟨by decide, (by decide : Lexeme .word printChunk.text),
    .keyword rfl (by decide +kernel)⟩

theorem spells_semicolon :
    Chunk.Spells .standard ⟨.symbol .semicolon, ";", 1⟩
      Chunk.semicolon :=
  ⟨by decide, .symbol .semicolon, .symbol rfl⟩

/- The last of the tokens is on some line. -/
theorem Token.exists_relined_concat
    (tokens : List Token)
    (t : Token)
    (line : Nat) :
    ∃ last,
      relined line (tokens ++ [t]) =
        relined line tokens ++ [{ t with line := last }] := by
  induction tokens generalizing line with
  | nil =>
      exact ⟨_, relined_cons line t []⟩
  | cons u tokens ih =>
      rcases ih (line + u.lexeme.toList.count '\n') with
        ⟨last, hRest⟩
      refine ⟨last, ?_⟩
      rw [List.cons_append, relined_cons, relined_cons, hRest]
      rfl

/- A text that is read as an expression can be printed. -/
theorem check_print
    {text : List Char}
    {e : Expr}
    (hReads : ReadsAs text e) :
    check .standard ("est " ++ String.ofList text ++ ";") =
      ⟨[.print printToken e], []⟩ := by
  obtain ⟨hCanonical, tokens, chunks, hChunks, hSpells,
    hWrites⟩ := hReads
  generalize hSource :
    "est " ++ String.ofList text ++ ";" = source
  have hText :
      Chunk.ofText source.toList =
        printChunk :: Chunk.space ::
          (chunks ++ [Chunk.semicolon]) := by
    have hList : source.toList =
        printChunk.text ++ ' ' :: (text ++ [';']) := by
      rw [← hSource, String.toList_append,
        String.toList_append, String.toList_ofList]
      simp [printChunk, Chunk.text]
    rw [hList, Chunk.ofText_append_of_sealed
        spells_printToken.lexeme
        spells_printToken.denotes.kind_ne_comment
        (Chunk.apart_space _).sealed,
      Chunk.ofText_space, hChunks]
  have hAll := List.rel_append hSpells
    (.cons spells_semicolon .nil)
  obtain ⟨hTokens, hErrors⟩ :=
    Chunk.filterMap_spelled hAll 1
  have hLocated :
      Located.ofChunks 1 (Chunk.ofText source.toList) =
        ⟨1, printChunk⟩ :: ⟨1, Chunk.space⟩ ::
          Located.ofChunks 1
            (chunks ++ [Chunk.semicolon]) := by
    rw [hText]
    rfl
  have hBody :
      (scan .standard source).body =
        printToken ::
          Token.relined 1
            (tokens ++ [⟨.symbol .semicolon, ";", 1⟩]) := by
    rw [body_scan, hLocated, ← hTokens,
      Chunk.filterMap_cons_append,
      Chunk.filterMap_cons_append,
      spells_printToken.token?_eq 1]
    rfl
  have hClean : (scan .standard source).errors = [] := by
    change (Located.ofChunks 1
      (Chunk.ofText source.toList)).filterMap _ = []
    rw [hLocated, Chunk.filterMap_cons_append,
      Chunk.filterMap_cons_append, hErrors,
      spells_printToken.denotes.error?_eq 1]
    rfl
  obtain ⟨last, hLast⟩ :=
    Token.exists_relined_concat tokens
      ⟨.symbol .semicolon, ";", 1⟩ 1
  have hProgram :
      Writes (Stmt.slotsAll [.print printToken e])
        (scan .standard source).body := by
    rw [hBody, hLast]
    simp only [Stmt.slotsAll, Stmt.slots, List.append_nil]
    exact .cons rfl
      (hWrites.append (.cons rfl .nil))
  have hParsed :=
    Parsed.ofTokens_complete [.print printToken e]
      ⟨⟨rfl, hCanonical⟩, trivial⟩ _ hProgram
      (Token.atEnd (1 + source.toList.count '\n')) rfl
  rw [← tokens_scan] at hParsed
  simp only [check, hParsed, hClean]
  rfl

namespace Run

variable {machine : Machine Sink}
variable (hCapacity : machine.sink.capacity = none)
variable (hFlushes : machine.sink.flushes = true)
include hCapacity hFlushes

/- Printing a value writes its text and a newline. -/
theorem ends_print
    (keyword : Token)
    {e : Expr}
    {value : Value}
    (hValue :
      e.eval machine.scopes = .ok value machine.scopes)
    (allowance : Nat) :
    let run :=
      ofProgram allowance [.print keyword e] machine
    run.outcome = .ok ∧
      run.output = (value.text ++ "\n").toUTF8 := by
  intro run
  let after : Machine Sink :=
    ⟨machine.scopes,
      ⟨machine.sink.written ++ (value.text ++ "\n").toUTF8,
        none, machine.sink.flushes⟩⟩
  have hExec :
      Stmt.execAll allowance [.print keyword e] machine =
        .ok () after := by
    simp only [Stmt.execAll, Stmt.exec, bind, EStateM.bind,
      Execution.evaluate, hValue, Execution.printLine,
      Execution.useSink, Sink.write_eq, Sink.write,
      hCapacity]
    rfl
  have hRun := ends_ofProgram hFlushes allowance
    [.print keyword e]
  simp only [stateAfter, hExec] at hRun
  exact ⟨hRun.outcome,
    hRun.output.trans (writtenSince_eq rfl)⟩

end Run

end OcScript

------------------------------------------------------------
-- Every Literal
------------------------------------------------------------

namespace OcScript

namespace Value

open Float.Model.UnpackedFloat
open Binary64

/-
  The expression that the literal of a value is read as.  A
  negative number is the opposite of a number without a
  minus, and the two zeros share their literal.
-/
def reading : Value → Expr
| .num x =>
    if x < 0 then
      .unary minusToken (.literal (.num (-x)))
    else if x == 0 then
      .literal (.num 0)
    else
      .literal (.num x)
| value => .literal value

theorem reading_zero
    {x : Float}
    {s : Sign}
    (hParts : parts x = .zero s) :
    reading (.num x) = .literal (.num 0) := by
  have hLess : ¬ x < 0 := by
    rw [lt_zero_iff, hParts]
    cases s <;> decide
  have hZero : (x == 0) = true := by
    rw [beq_zero, hParts]
    cases s <;> rfl
  rw [reading, if_neg hLess, if_pos hZero]

theorem reading_positive
    {x : Float}
    {M : Nat}
    {E : Int}
    {hPos : 0 < M}
    (hParts : parts x = .finite .positive M E hPos) :
    reading (.num x) = .literal (.num x) := by
  have hLess : ¬ x < 0 := by
    rw [lt_zero_iff, hParts]
    exact Bool.false_ne_true
  have hZero : ¬ (x == 0) = true := by
    rw [beq_zero, hParts]
    exact Bool.false_ne_true
  rw [reading, if_neg hLess, if_neg hZero]

theorem reading_negative
    {x : Float}
    {M : Nat}
    {E : Int}
    {hPos : 0 < M}
    (hParts : parts x = .finite .negative M E hPos) :
    reading (.num x) =
      .unary minusToken (.literal (.num (-x))) := by
  have hLess : x < 0 := by
    rw [lt_zero_iff, hParts]
    rfl
  rw [reading, if_pos hLess]

/- The literal of a finite number is read as that number. -/
theorem readsAs_literal_num
    {x : Float}
    (hFinite : x.isFinite) :
    ReadsAs (numberText x).toList (reading (.num x)) := by
  rcases cases_of_isFinite hFinite with
    ⟨s, hParts⟩ | ⟨M, E, hPos, hParts⟩ |
      ⟨M, E, hPos, hParts⟩
  · obtain ⟨d, hDenotes, hRead⟩ := denotes_zero
    rw [reading_zero hParts, numberText_zero hParts,
      ← hRead]
    exact readsAs_number hDenotes
  · obtain ⟨d, hDenotes, hRead⟩ := denotes_positive hParts
    have hReads := readsAs_number hDenotes
    rwa [hRead, ← reading_positive hParts] at hReads
  · obtain ⟨d, hDenotes, hRead⟩ :=
      denotes_positive (parts_neg hParts)
    have hReads := readsAs_minus hDenotes
    rw [hRead, ← reading_negative hParts] at hReads
    rw [numberText_negative hParts, String.toList_append]
    exact hReads

/- Every literal is read as the expression of its value. -/
theorem readsAs_literal
    {value : Value}
    (hDenotable : value.IsDenotable) :
    ReadsAs value.literal.toList value.reading := by
  cases value with
  | str s =>
      have hReads := readsAs_string hDenotable
      rw [String.ofList_toList] at hReads
      simpa [literal, reading] using hReads
  | num x => exact readsAs_literal_num hDenotable
  | bool b =>
      cases b with
      | true =>
          have hEntry :
              KeywordTable.standard["true"]? =
                some .trueWord := by
            decide +kernel
          exact readsAs_word
            (by decide) hEntry rfl
      | false =>
          have hEntry :
              KeywordTable.standard["fals"]? =
                some .falseWord := by
            decide +kernel
          exact readsAs_word
            (by decide) hEntry rfl
  | null =>
      have hEntry :
          KeywordTable.standard["nul"]? =
            some .nilWord := by
        decide +kernel
      exact readsAs_word
        (by decide) hEntry rfl

/- That expression has a value of the same text. -/
theorem eval_reading
    {value : Value}
    (hDenotable : value.IsDenotable)
    (scopes : Scopes) :
    ∃ result,
      value.reading.eval scopes = .ok result scopes ∧
      result.text = value.text := by
  cases value with
  | str s => exact ⟨.str s, rfl, rfl⟩
  | bool b => exact ⟨.bool b, rfl, rfl⟩
  | null => exact ⟨.null, rfl, rfl⟩
  | num x =>
      rcases cases_of_isFinite hDenotable with
        ⟨s, hParts⟩ | ⟨M, E, hPos, hParts⟩ |
          ⟨M, E, hPos, hParts⟩
      · refine ⟨.num 0, ?_, ?_⟩
        · rw [reading_zero hParts]
          rfl
        · exact (numberText_zero parts_zero).trans
            (numberText_zero hParts).symm
      · refine ⟨.num x, ?_, rfl⟩
        rw [reading_positive hParts]
        rfl
      · refine ⟨.num x, ?_, rfl⟩
        rw [reading_negative hParts]
        change EStateM.Result.ok (Value.num (- -x)) scopes = _
        rw [neg_neg_of_parts hParts]

end Value

/-
  Printing the literal of a value writes the text of that
  value and a newline.  A negative number is read as the
  opposite of a number, and both zeros print as 0.
-/
theorem printed_literals_read_back
    {value : Value}
    (hDenotable : value.IsDenotable)
    {machine : Machine Sink}
    (hCapacity : machine.sink.capacity = none)
    (hFlushes : machine.sink.flushes = true)
    (allowance : Nat) :
    let run :=
      Run.ofSource .standard allowance
        ("est " ++ value.literal ++ ";") machine
    run.outcome = .ok ∧
      run.output = (value.text ++ "\n").toUTF8 ∧
      run.program = [.print printToken value.reading] ∧
      (value.equals (.num 0) → value.text = "0") := by
  intro run
  have hCheck :=
    check_print (Value.readsAs_literal hDenotable)
  rw [String.ofList_toList] at hCheck
  obtain ⟨result, hValue, hText⟩ :=
    Value.eval_reading hDenotable machine.scopes
  have hRun :
      run =
        Run.ofProgram allowance
          [.print printToken value.reading] machine := by
    simp only [run, Run.ofSource, hCheck]
    rfl
  obtain ⟨hOutcome, hOutput⟩ :=
    Run.ends_print hCapacity hFlushes printToken hValue
      allowance
  rw [hText] at hOutput
  rw [hRun]
  refine ⟨hOutcome, hOutput, ?_, ?_⟩
  · rw [Run.program_ofProgram]
  · intro hZero
    cases value with
    | num x => exact Value.numberText_of_beq_zero hZero
    | str s => cases hZero
    | bool b => cases hZero
    | null => cases hZero

/- A string of two lines, with what looks like a comment. -/
theorem printed_literals_read_back_twoLines :
    let value : Value := .str "1;//\nnul"
    let machine := Machine.fresh Sink.unbounded
    value.IsDenotable ∧
      machine.sink.capacity = none ∧
      machine.sink.flushes = true ∧
      (Run.ofSource .standard 0 "est \"1;//\nnul\";"
          machine).output =
        "1;//\nnul\n".toUTF8 := by
  intro value machine
  have hDenotable : value.IsDenotable := by
    decide
  have hCapacity : machine.sink.capacity = none := rfl
  have hRun :=
    printed_literals_read_back hDenotable hCapacity rfl 0
  exact ⟨hDenotable, hCapacity, rfl, hRun.2.1⟩

end OcScript
