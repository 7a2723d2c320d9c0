import OcScript.Proofs.Run.ErrorPlaces
import OcScript.Proofs.Run.Sessions
import OcScript.Proofs.Scan.Respelled

/-
  This file proves that the spelling of the keywords does
  not change what a source does.

  A respelled source is scanned into the same tokens but for
  the lexemes of keywords.  The grammar reads tokens by
  their kinds, so the program is the same but for these
  lexemes, and no name is among them.  So the program runs
  as before, and only an error at a keyword shows it: that
  is a print keyword, when the writer fails.

  Key theorems include:
    * `OcScript.Stmt.kind_of_mem_nameTokensAll`
    * `OcScript.Respellable.check_respelled`
    * `OcScript.Run.ends_mapTokensAll`
    * `OcScript.Run.respelled_source_runs_alike`
-/

------------------------------------------------------------
-- Programs of Respelled Sources
------------------------------------------------------------

namespace OcScript

/- The names in a canonical expression are identifiers. -/
theorem Expr.kind_of_mem_nameTokens
    {e : Expr}
    (hCanonical : e.Canonical)
    {t : Token}
    (hMem : t ∈ e.nameTokens) :
    t.kind = .identifier := by
  induction e with
  | literal value =>
      cases hMem
  | group inner ih =>
      exact ih hCanonical hMem
  | unary operator operand ih =>
      exact ih hCanonical.2.2 hMem
  | binary left operator right leftIH rightIH =>
      rcases hCanonical with ⟨-, -, hLeft, hRight⟩
      rcases List.mem_append.mp hMem with hMem | hMem
      · exact leftIH hLeft hMem
      · exact rightIH hRight hMem
  | logical left operator right leftIH rightIH =>
      rcases hCanonical with ⟨-, hLeft, hRight⟩
      rcases List.mem_append.mp hMem with hMem | hMem
      · exact leftIH hLeft hMem
      · exact rightIH hRight hMem
  | var name =>
      rw [List.mem_singleton.mp hMem]
      exact hCanonical
  | assign name value ih =>
      rcases List.mem_cons.mp hMem with rfl | hMem
      · exact hCanonical.1
      · exact ih hCanonical.2 hMem

namespace Stmt

theorem kind_of_mem_nameTokens
    {s : Stmt}
    (hCanonical : s.Canonical)
    {t : Token}
    (hMem : t ∈ s.nameTokens) :
    t.kind = .identifier := by
  induction s with
  | expression value =>
      exact Expr.kind_of_mem_nameTokens hCanonical hMem
  | print keyword value =>
      exact Expr.kind_of_mem_nameTokens hCanonical.2 hMem
  | declare name initial =>
      cases initial with
      | none =>
          rw [List.mem_singleton.mp hMem]
          exact hCanonical
      | some initial =>
          rcases List.mem_cons.mp hMem with rfl | hMem
          · exact hCanonical.1
          · exact
              Expr.kind_of_mem_nameTokens hCanonical.2 hMem
  | block body ih =>
      rcases mem_nameTokensAll.mp hMem with
        ⟨s, hBody, hToken⟩
      exact
        ih s hBody (canonicalAll_iff.mp hCanonical s hBody)
          hToken
  | ifThen condition thenBranch ih =>
      rcases List.mem_append.mp hMem with hMem | hMem
      · exact Expr.kind_of_mem_nameTokens hCanonical.1 hMem
      · exact ih hCanonical.2.1 hMem
  | ifElse condition thenBranch elseBranch thenIH elseIH =>
      rcases hCanonical with
        ⟨hCondition, ⟨hThen, -⟩, hElse, -⟩
      rcases List.mem_append.mp hMem with hMem | hMem
      · exact Expr.kind_of_mem_nameTokens hCondition hMem
      rcases List.mem_append.mp hMem with hMem | hMem
      · exact thenIH hThen hMem
      · exact elseIH hElse hMem
  | whileDo condition body ih =>
      rcases List.mem_append.mp hMem with hMem | hMem
      · exact Expr.kind_of_mem_nameTokens hCanonical.1 hMem
      · exact ih hCanonical.2.1 hMem
  | skipped =>
      cases hCanonical

/- So are the names in a canonical program. -/
theorem kind_of_mem_nameTokensAll
    {body : List Stmt}
    (hCanonical : CanonicalAll body)
    {t : Token}
    (hMem : t ∈ nameTokensAll body) :
    t.kind = .identifier := by
  rcases mem_nameTokensAll.mp hMem with ⟨s, hBody, hToken⟩
  exact
    kind_of_mem_nameTokens
      (canonicalAll_iff.mp hCanonical s hBody) hToken

end Stmt

/-
  A respelled source is clean if the source is, and its
  program is the same with its tokens respelled.
-/
theorem Respellable.check_respelled
    {table : KeywordTable}
    {entries : List (String × String)}
    {source : String}
    (hRespellable : Respellable table entries source)
    (hClean : (check table source).diagnostics = []) :
    check (.ofSpellings entries)
        (respelled table entries source) =
      { program :=
          Stmt.mapTokensAll (Token.respelled entries)
            (check table source).program
        diagnostics := [] } := by
  rcases written_of_clean hClean with ⟨hCanonical, hWrites⟩
  have hKinds := Token.kind_respelled entries
  have hErrors := (diagnostics_eq_nil_iff.mp hClean).1
  rw [← hRespellable.errors_scan_respelled] at hErrors
  have hNewCanonical :=
    (Stmt.canonicalAll_mapTokensAll hKinds _).mpr hCanonical
  have hNewWrites := hWrites.mapTokens hKinds
  rw [← hRespellable.body_scan_respelled] at hNewWrites
  rw [check, ofTokens_scan,
    Parsed.ofBody_complete _ hNewCanonical hNewWrites,
    hErrors]
  rfl

end OcScript

------------------------------------------------------------
-- Runs With Changed Tokens
------------------------------------------------------------

namespace OcScript

variable {W : Type}
variable [Writer W]
variable {f : Token → Token}

/- A run with changed tokens stops at the changed token. -/
theorem Execution.run_mapTokensAll
    (hKinds : ∀ t, (f t).kind = t.kind)
    (hEnd : f (Token.atEnd 0) = Token.atEnd 0)
    (allowance : Nat)
    {program : Program}
    (hNames :
      ∀ t ∈ Stmt.nameTokensAll program,
        (f t).lexeme = t.lexeme) :
    (run allowance (Stmt.mapTokensAll f program) :
        Execution W Unit) =
      EStateM.adaptExcept (Stop.relabel f)
        (run allowance program) := by
  have hFlush :=
    useSink_relabel f (Token.atEnd 0)
      (Writer.flush : EStateM SinkError W Unit)
  rw [hEnd] at hFlush
  rw [run, run, adaptExcept_bind,
    Stmt.execAll_mapTokensAll hKinds allowance hNames,
    ← hFlush]

namespace Run

theorem ends_mapTokensAll
    (hKinds : ∀ t, (f t).kind = t.kind)
    (hEnd : f (Token.atEnd 0) = Token.atEnd 0)
    (allowance : Nat)
    {program : Program}
    (hNames :
      ∀ t ∈ Stmt.nameTokensAll program,
        (f t).lexeme = t.lexeme)
    (machine : Machine W) :
    let run := ofProgram allowance program machine
    Ends
      (ofProgram allowance (Stmt.mapTokensAll f program)
        machine)
      (run.outcome.relabel f) run.output run.machine := by
  intro run
  simp only [run, ofProgram,
    Execution.run_mapTokensAll hKinds hEnd allowance hNames,
    EStateM.adaptExcept]
  cases Execution.run allowance program machine with
  | ok _ after =>
      exact ⟨rfl, rfl, rfl⟩
  | error stop after =>
      cases stop with
      | failure error =>
          exact ⟨rfl, rfl, rfl⟩
      | outOfAllowance =>
          exact ⟨rfl, rfl, rfl⟩

end Run

end OcScript

------------------------------------------------------------
-- Runs of Respelled Sources
------------------------------------------------------------

namespace OcScript

/- Just an error of a writer can stand at a keyword. -/
theorem RuntimeError.relabel_respelled
    {e : RuntimeError}
    (hPlaced : e.IsPlaced)
    (hSupported : e.IsSupported)
    (hSink : ∀ error, e.cause ≠ .sink error)
    (entries : List (String × String)) :
    e.relabel (Token.respelled entries) = e := by
  have hSame : e.token.respelled entries = e.token := by
    apply Token.respelled_of_not_keyword
    intro k hKeyword
    unfold IsPlaced at hPlaced
    rw [hKeyword] at hPlaced
    cases hCause : e.cause with
    | unsupportedOperator =>
        exact hSupported hCause
    | sink error =>
        exact hSink error hCause
    | _ =>
        simp [hCause] at hPlaced
  rw [relabel, hSame]

/- A word is a keyword if the table finds it. -/
theorem KeywordTable.getElem?_of_kindOf
    {table : KeywordTable}
    {word : String}
    {k : Keyword}
    (hKind : table.kindOf word = .keyword k) :
    table[word]? = some k := by
  unfold kindOf at hKind
  cases hFound : table[word]? with
  | none =>
      rw [hFound] at hKind
      cases hKind
  | some found =>
      rw [hFound] at hKind
      cases hKind
      rfl

/- A keyword token has a spelling of its keyword. -/
theorem getElem?_of_mem_body
    {table : KeywordTable}
    {source : String}
    {t : Token}
    (hMem : t ∈ (scan table source).body)
    {k : Keyword}
    (hKind : t.kind = .keyword k) :
    table[t.lexeme]? = some k := by
  rw [body_scan, List.mem_filterMap] at hMem
  rcases hMem with ⟨l, -, hToken⟩
  rcases Option.map_eq_some_iff.mp hToken with
    ⟨kind, hFound, rfl⟩
  cases hKind
  by_cases hWord : l.chunk.kind = .word
  · rw [Located.kind?_of_word hWord] at hFound
    exact
      KeywordTable.getElem?_of_kindOf
        (Option.some.inj hFound)
  · exact
      absurd hFound (Located.kind?_ne_keyword hWord table k)

namespace Run

variable {W : Type}
variable [Writer W]

/-
  A respelled source runs as the source does, and fails at
  the respelled token if it fails.
-/
theorem ends_respelled
    {table : KeywordTable}
    {entries : List (String × String)}
    {source : String}
    (hRespellable : Respellable table entries source)
    (hClean : (check table source).diagnostics = [])
    (allowance : Nat)
    (machine : Machine W) :
    let run := ofSource table allowance source machine
    Ends
      (ofSource (.ofSpellings entries) allowance
        (respelled table entries source) machine)
      (run.outcome.relabel (Token.respelled entries))
      run.output run.machine := by
  have hCheck := hRespellable.check_respelled hClean
  have hNewClean :
      (check (.ofSpellings entries)
        (respelled table entries source)).diagnostics =
          [] := by
    rw [hCheck]
  have hNames :
      ∀ t ∈ Stmt.nameTokensAll (check table source).program,
        (t.respelled entries).lexeme = t.lexeme := by
    intro t hMem
    rw [Token.respelled_of_not_keyword]
    intro k hKeyword
    have hName :=
      Stmt.kind_of_mem_nameTokensAll
        (written_of_clean hClean).1 hMem
    rw [hName] at hKeyword
    cases hKeyword
  rw [ofSource_of_clean (isClean_iff.mpr hClean),
    ofSource_of_clean (isClean_iff.mpr hNewClean), hCheck]
  exact
    ends_mapTokensAll (Token.kind_respelled entries) rfl
      allowance hNames machine

/-
  Respelled tokens do not change how a run ends, unless the
  writer fails at a print keyword.
-/
theorem outcome_respelled
    {table : KeywordTable}
    {entries : List (String × String)}
    {source : String}
    (hRespellable : Respellable table entries source)
    (hClean : (check table source).diagnostics = [])
    (allowance : Nat)
    (machine : Machine W) :
    let run := ofSource table allowance source machine
    let outcome :=
      run.outcome.relabel (Token.respelled entries)
    outcome = run.outcome ∨
      ∃ spelling newSpelling line sinkError,
        table[spelling]? = some .printWord ∧
          (Keyword.printWord.name, newSpelling) ∈ entries ∧
          run.outcome =
            .failed
              ⟨⟨.keyword .printWord, spelling, line⟩,
                .sink sinkError⟩ ∧
          outcome =
            .failed
              ⟨⟨.keyword .printWord, newSpelling, line⟩,
                .sink sinkError⟩ := by
  intro run outcome
  have hRun :=
    ofSource_of_clean (isClean_iff.mpr hClean) allowance
      machine
  cases hOutcome : run.outcome with
  | failed error =>
      simp only [outcome, hOutcome, Outcome.relabel]
      simp only [run, hRun] at hOutcome
      rcases cases_of_failed hOutcome with
        hError | ⟨_, sinkError, -, -, -, rfl⟩
      · have hBlamed := among_body_of_error hClean hError
        have hSupported :=
          isSupported_of_failed (written_of_clean hClean).1
            hOutcome
        by_cases hSink :
            ∃ sinkError, error.cause = .sink sinkError
        · right
          rcases error with ⟨⟨kind, spelling, line⟩, cause⟩
          rcases hSink with ⟨sinkError, rfl⟩
          rcases hBlamed with ⟨hMem, rfl⟩
          have hTable := getElem?_of_mem_body hMem rfl
          rcases KeywordTable.exists_spelling?
              (hRespellable.spelled _ _ hTable) with
            ⟨newSpelling, hSpelling⟩
          refine
            ⟨spelling, newSpelling, line, sinkError, hTable,
              KeywordTable.name_mem_of_spelling? hSpelling,
              rfl, ?_⟩
          simp only [RuntimeError.relabel, Token.respelled,
            hSpelling, Option.getD_some]
        · left
          rw [not_exists] at hSink
          rw [RuntimeError.relabel_respelled hBlamed.2
            hSupported hSink]
      · exact .inl rfl
  | _ =>
      left
      simp only [outcome, hOutcome, Outcome.relabel]

open KeywordTable (ofSpellings WellSpelled)

/-
  Respelling the keywords does not change a source.

  Let the second list spell every keyword that the first
  list spells, each as a word of its own.  Take a source
  that is clean under the first spellings, none of whose
  identifiers is a second spelling.  With its keywords
  respelled in place it is clean under the second spellings.
  On every machine it prints the same, leaves the same
  machine, and ends in the same way, within every allowance.
  Only if the writer fails, the print keyword that is blamed
  is shown in its new spelling.
-/
theorem respelled_source_runs_alike
    {W : Type}
    [Writer W]
    (first second : List (String × String))
    (source : String)
    (hKnown :
      ∀ k : Keyword,
        (∃ spelling, (k.name, spelling) ∈ first) →
        ∃ spelling, (k.name, spelling) ∈ second)
    (hSecond : WellSpelled second)
    (hClean :
      (check (ofSpellings first) source).diagnostics = [])
    (hFree :
      ∀ t ∈ (scan (ofSpellings first) source).tokens,
        t.kind = .identifier →
        ∀ k : Keyword, (k.name, t.lexeme) ∉ second) :
    let newSource :=
      respelled (ofSpellings first) second source
    (check (ofSpellings second) newSource).diagnostics =
        [] ∧
      ∀ allowance (machine : Machine W),
        let run :=
          ofSource (ofSpellings first) allowance source
            machine
        let newRun :=
          ofSource (ofSpellings second) allowance newSource
            machine
        newRun.output = run.output ∧
          newRun.machine = run.machine ∧
          (newRun.outcome = run.outcome ∨
            ∃ spelling newSpelling line sinkError,
              (Keyword.printWord.name, spelling) ∈ first ∧
                (Keyword.printWord.name, newSpelling) ∈
                  second ∧
                run.outcome =
                  .failed
                    ⟨⟨.keyword .printWord, spelling, line⟩,
                      .sink sinkError⟩ ∧
                newRun.outcome =
                  .failed
                    ⟨⟨.keyword .printWord, newSpelling,
                      line⟩, .sink sinkError⟩) := by
  intro newSource
  have hRespellable :
      Respellable (ofSpellings first) second source := by
    refine ⟨?_, hSecond, hFree⟩
    intro word k hFound
    exact
      hKnown k
        ⟨word, KeywordTable.name_mem_of_getElem? hFound⟩
  have hCheck := hRespellable.check_respelled hClean
  refine ⟨by rw [hCheck], ?_⟩
  intro allowance machine run newRun
  have hEnds : Ends newRun _ _ _ :=
    ends_respelled hRespellable hClean allowance machine
  refine ⟨hEnds.output, hEnds.machine, ?_⟩
  rw [hEnds.outcome]
  rcases outcome_respelled hRespellable hClean allowance
      machine with
    hSame | ⟨spelling, newSpelling, line, sinkError, hFound,
      hNew, hOutcome, hNewOutcome⟩
  · exact .inl hSame
  · exact
      .inr
        ⟨spelling, newSpelling, line, sinkError,
          KeywordTable.name_mem_of_getElem? hFound, hNew,
          hOutcome, hNewOutcome⟩

/- The keywords in English. -/
def englishSpellings : List (String × String) :=
  [("and", "and"), ("or", "or"), ("class", "class"),
    ("if", "if"), ("else", "else"), ("false", "false"),
    ("function", "fun"), ("for", "for"), ("nil", "nil"),
    ("print", "print"), ("return", "return"),
    ("super", "super"), ("this", "this"),
    ("true", "true"), ("var", "let"), ("while", "while")]

/-
  Keywords beside symbols, and a keyword's spelling inside a
  name, a string and a comment.
-/
def crowdedLoop : String :=
  "var se1=\"se\";// se\n" ++
    "mentre(se1)\x7best\"se\";se1=nul;\x7dest se1;"

/- The same loop with its keywords in English. -/
def crowdedLoopInEnglish : String :=
  "let se1=\"se\";// se\n" ++
    "while(se1)\x7bprint\"se\";se1=nil;\x7dprint se1;"

/- The loop in English is clean, and prints the same. -/
theorem respelled_source_runs_alike_crowdedLoop :
    let machine := Machine.fresh Sink.unbounded
    let newTable := ofSpellings englishSpellings
    let newRun :=
      ofSource newTable 2 crowdedLoopInEnglish machine
    respelled .standard englishSpellings crowdedLoop =
        crowdedLoopInEnglish ∧
      (check newTable crowdedLoopInEnglish).diagnostics =
        [] ∧
      newRun.output = "se\nnul\n".toUTF8 ∧
      newRun.outcome = .ok := by
  have hKnown :
      ∀ k : Keyword,
        (∃ spelling,
          (k.name, spelling) ∈
            KeywordTable.standardSpellings) →
        ∃ spelling, (k.name, spelling) ∈ englishSpellings := by
    intro k _
    cases k <;> simp [englishSpellings, Keyword.name]
  have hSecond : WellSpelled englishSpellings := by
    apply WellSpelled.of_nodup <;> decide +kernel
  have hClean :
      (check .standard crowdedLoop).diagnostics = [] := by
    decide +kernel
  have hWords :
      ∀ t ∈ (scan .standard crowdedLoop).tokens,
        t.kind = .identifier →
        t.lexeme ∉ englishSpellings.map Prod.snd := by
    decide +kernel
  have hRespelled :
      respelled .standard englishSpellings crowdedLoop =
        crowdedLoopInEnglish := by
    decide +kernel
  have hOutcome :
      (ofSource .standard 2 crowdedLoop
        (Machine.fresh Sink.unbounded)).outcome = .ok := by
    decide +kernel
  have hOutput :
      (ofSource .standard 2 crowdedLoop
        (Machine.fresh Sink.unbounded)).output =
          "se\nnul\n".toUTF8 := by
    decide +kernel
  have hAlike :=
    respelled_source_runs_alike (W := Sink)
      KeywordTable.standardSpellings englishSpellings
      crowdedLoop hKnown hSecond hClean
      (fun t hMem hKind k hEntry =>
        hWords t hMem hKind (List.mem_map_of_mem hEntry))
  simp only [KeywordTable.standard] at hRespelled
  simp only [hRespelled] at hAlike
  rcases hAlike with ⟨hNewClean, hRuns⟩
  rcases hRuns 2 (Machine.fresh Sink.unbounded) with
    ⟨hSameOutput, -, hSame⟩
  refine
    ⟨hRespelled, hNewClean, hSameOutput.trans hOutput, ?_⟩
  rcases hSame with hSame | ⟨_, _, _, _, -, -, hFailed, -⟩
  · exact hSame.trans hOutcome
  · cases hOutcome.symm.trans hFailed

end Run

end OcScript
