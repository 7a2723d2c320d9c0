import OcScript.Proofs.Parse.Blame
import OcScript.Proofs.Run.Accepted

/-
  This file proves that every error points into its source:
  the token of a parse error and the token at which a run
  fails are tokens that were scanned from the source.

  The parser blames tokens it was given.  A program keeps
  only tokens it was written with, and an execution fails
  only at tokens that its program keeps.  A writer that does
  not flush is the one failure without such a token.

  Key definitions include:
    * `OcScript.Token.IsFrom`
    * `OcScript.RuntimeError.IsPlaced`

  Key theorems include:
    * `OcScript.Token.isFrom_of_mem`
    * `OcScript.Writes.mem_of_kept`
    * `OcScript.Expr.failsIn_among`
    * `OcScript.Stmt.failsIn_execAll_among`
    * `OcScript.Run.errors_point_into_source`
-/

------------------------------------------------------------
-- Lines of Tokens
------------------------------------------------------------

namespace OcScript

namespace Token

/-
  The token was scanned from the source, so its line is one
  of the lines of the source.
-/
structure IsFrom
    (table : KeywordTable)
    (source : String)
    (t : Token) :
    Prop where
  mem : t ∈ (scan table source).tokens
  one_le_line : 1 ≤ t.line
  line_le : t.line ≤ 1 + source.toList.count '\n'

theorem isFrom_of_mem
    {table : KeywordTable}
    {source : String}
    {t : Token}
    (hMem : t ∈ (scan table source).tokens) :
    t.IsFrom table source := by
  suffices hBounds :
      1 ≤ t.line ∧ t.line ≤ 1 + source.toList.count '\n' from
    ⟨hMem, hBounds.1, hBounds.2⟩
  rw [tokens_scan, List.mem_append] at hMem
  rcases hMem with hBody | hEnd
  · rw [body_scan, List.mem_filterMap] at hBody
    rcases hBody with ⟨l, hLocated, hToken⟩
    have hBounds :=
      Located.line_bounds_of_mem_ofChunks hLocated
    rw [Chunk.flatMap_text_ofText] at hBounds
    rcases Option.map_eq_some_iff.mp hToken with
      ⟨kind, -, rfl⟩
    exact hBounds
  · rw [List.mem_singleton.mp hEnd]
    exact ⟨Nat.le_add_right .., Nat.le_refl _⟩

end Token

end OcScript

------------------------------------------------------------
-- Tokens That a Program Keeps
------------------------------------------------------------

namespace OcScript

/- What a program keeps was there when it was written. -/
theorem Writes.mem_of_kept
    {slots : List Slot}
    {tokens : List Token}
    (hWrites : Writes slots tokens)
    {t : Token}
    (hKept : .kept t ∈ slots) :
    t ∈ tokens := by
  induction hWrites with
  | nil =>
      cases hKept
  | cons hFits _ ih =>
      rcases List.mem_cons.mp hKept with rfl | hKept
      · rw [hFits]
        exact List.mem_cons_self ..
      · exact List.mem_cons_of_mem _ (ih hKept)

namespace Stmt

theorem slots_subset_slotsAll
    {body : List Stmt}
    {s : Stmt}
    (hMem : s ∈ body) :
    s.slots ⊆ slotsAll body := by
  rcases List.append_of_mem hMem with ⟨front, back, rfl⟩
  rw [slotsAll_append, slotsAll]
  intro slot hSlot
  simp [hSlot]

/- A part of a statement is written inside it. -/
theorem slots_subset_of_mem_parts
    {s part : Stmt}
    (hMem : part ∈ s.parts) :
    part.slots ⊆ s.slots := by
  induction s with
  | expression value =>
      rw [List.mem_singleton.mp hMem]
      exact List.Subset.refl _
  | print keyword value =>
      rw [List.mem_singleton.mp hMem]
      exact List.Subset.refl _
  | declare name initial =>
      rw [List.mem_singleton.mp hMem]
      exact List.Subset.refl _
  | block body ih =>
      rcases List.mem_cons.mp hMem with rfl | hMem
      · exact List.Subset.refl _
      · rw [partsAll_eq_flatMap, List.mem_flatMap] at hMem
        rcases hMem with ⟨s, hBody, hPart⟩
        intro slot hSlot
        have hInner :=
          slots_subset_slotsAll hBody (ih s hBody hPart hSlot)
        simp [slots, hInner]
  | ifThen condition thenBranch ih =>
      rcases List.mem_cons.mp hMem with rfl | hMem
      · exact List.Subset.refl _
      · intro slot hSlot
        simp [slots, ih hMem hSlot]
  | ifElse condition thenBranch elseBranch thenIH elseIH =>
      rcases List.mem_cons.mp hMem with rfl | hMem
      · exact List.Subset.refl _
      · intro slot hSlot
        rcases List.mem_append.mp hMem with hMem | hMem
        · simp [slots, thenIH hMem hSlot]
        · simp [slots, elseIH hMem hSlot]
  | whileDo condition body ih =>
      rcases List.mem_cons.mp hMem with rfl | hMem
      · exact List.Subset.refl _
      · intro slot hSlot
        simp [slots, ih hMem hSlot]
  | skipped =>
      rw [List.mem_singleton.mp hMem]
      exact List.Subset.refl _

theorem slots_subset_of_mem_partsAll
    {body : List Stmt}
    {part : Stmt}
    (hMem : part ∈ partsAll body) :
    part.slots ⊆ slotsAll body := by
  rw [partsAll_eq_flatMap, List.mem_flatMap] at hMem
  rcases hMem with ⟨s, hBody, hPart⟩
  exact
    List.Subset.trans (slots_subset_of_mem_parts hPart)
      (slots_subset_slotsAll hBody)

/- An expression of a statement is written inside it. -/
theorem slots_subset_of_mem_expressions
    {s : Stmt}
    {e : Expr}
    (hMem : e ∈ s.expressions) :
    e.slots ⊆ s.slots := by
  intro slot hSlot
  cases s with
  | declare name initial =>
      cases initial with
      | none =>
          cases hMem
      | some initial =>
          cases List.mem_singleton.mp hMem
          simp [slots, hSlot]
  | block body =>
      cases hMem
  | skipped =>
      cases hMem
  | _ =>
      cases List.mem_singleton.mp hMem
      simp [slots, conditionSlots, hSlot]

end Stmt

end OcScript

------------------------------------------------------------
-- Tokens at Which an Execution Fails
------------------------------------------------------------

namespace OcScript

namespace RuntimeError

/-
  The error stands at a token of the kind that its cause
  asks for: operands are missed at symbols, names at
  identifiers, and a writer is blamed at a print keyword.
-/
def IsPlaced
    (e : RuntimeError) :
    Prop :=
  match e.cause with
  | .operandNotNumber
  | .operandsNotNumbers
  | .operandsNotAddable => ∃ s, e.token.kind = .symbol s
  | .undefinedVariable => e.token.kind = .identifier
  | .unsupportedOperator => True
  | .sink _ => e.token.kind = .keyword .printWord

/- The error is placed, at a token that some slot keeps. -/
structure IsAmong
    (slots : List Slot)
    (e : RuntimeError) :
    Prop where
  kept : .kept e.token ∈ slots
  placed : e.IsPlaced

end RuntimeError

namespace Operation

variable {operator : Token}
variable {error : RuntimeError}

/- Operators fail at their own tokens. -/
theorem placed_of_unary
    {operand : Value}
    (hError : unary operator operand = .error error) :
    error.token = operator ∧ error.IsPlaced := by
  unfold unary at hError
  split at hError
  · cases hError
  · rename_i hMinus
    split at hError
    · cases hError
    · cases hError
      exact ⟨rfl, .minus, hMinus⟩
  · cases hError
    exact ⟨rfl, trivial⟩

/- The operators on numbers are symbols. -/
theorem exists_symbol_of_onNumbers?
    {kind : TokenKind}
    {apply : Float → Float → Value}
    (hSome : onNumbers? kind = some apply) :
    ∃ s, kind = .symbol s := by
  cases kind with
  | symbol s =>
      exact ⟨s, rfl⟩
  | _ =>
      cases hSome

theorem placed_of_binary
    {left right : Value}
    (hError : binary operator left right = .error error) :
    error.token = operator ∧ error.IsPlaced := by
  unfold binary at hError
  split at hError
  · rename_i hPlus
    unfold add at hError
    split at hError
    · cases hError
    · cases hError
    · cases hError
      exact ⟨rfl, .plus, hPlus⟩
  · cases hError
  · cases hError
  · split at hError
    · cases hError
      exact ⟨rfl, trivial⟩
    · rename_i hSome
      split at hError
      · cases hError
      · cases hError
        exact ⟨rfl, exists_symbol_of_onNumbers? hSome⟩

theorem placed_of_decides
    {left : Value}
    (hError : decides operator left = .error error) :
    error.token = operator ∧ error.IsPlaced := by
  unfold decides at hError
  split at hError
  · cases hError
  · cases hError
  · cases hError
    exact ⟨rfl, trivial⟩

end Operation

namespace Expr

open RuntimeError (IsAmong)

variable {slots : List Slot}

/- A part of an expression is written inside it. -/
theorem slots_subset_of_mem_parts
    {e part : Expr}
    (hMem : part ∈ e.parts) :
    part.slots ⊆ e.slots := by
  induction e with
  | literal value =>
      rw [List.mem_singleton.mp hMem]
      exact List.Subset.refl _
  | var name =>
      rw [List.mem_singleton.mp hMem]
      exact List.Subset.refl _
  | group inner ih =>
      rcases List.mem_cons.mp hMem with rfl | hMem
      · exact List.Subset.refl _
      · intro slot hSlot
        simp [Expr.slots, ih hMem hSlot]
  | unary operator operand ih =>
      rcases List.mem_cons.mp hMem with rfl | hMem
      · exact List.Subset.refl _
      · exact List.subset_cons_of_subset _ (ih hMem)
  | binary left operator right leftIH rightIH =>
      rcases List.mem_cons.mp hMem with rfl | hMem
      · exact List.Subset.refl _
      · intro slot hSlot
        rcases List.mem_append.mp hMem with hMem | hMem
        · simp [Expr.slots, leftIH hMem hSlot]
        · simp [Expr.slots, rightIH hMem hSlot]
  | logical left operator right leftIH rightIH =>
      rcases List.mem_cons.mp hMem with rfl | hMem
      · exact List.Subset.refl _
      · intro slot hSlot
        rcases List.mem_append.mp hMem with hMem | hMem
        · simp [Expr.slots, leftIH hMem hSlot]
        · simp [Expr.slots, rightIH hMem hSlot]
  | assign name value ih =>
      rcases List.mem_cons.mp hMem with rfl | hMem
      · exact List.Subset.refl _
      · intro slot hSlot
        simp [Expr.slots, ih hMem hSlot]

/- The last step of an expression fails at its own token. -/
theorem Canonical.stepFailsIn_among
    {e : Expr}
    (hCanonical : e.Canonical)
    (hSlots : e.slots ⊆ slots) :
    e.StepFailsIn (IsAmong slots) := by
  cases e with
  | literal value =>
      trivial
  | group inner =>
      trivial
  | unary operator operand =>
      intro value error hError
      rcases Operation.placed_of_unary hError with
        ⟨rfl, hPlaced⟩
      exact ⟨hSlots (by simp [Expr.slots]), hPlaced⟩
  | binary left operator right =>
      intro leftValue rightValue error hError
      rcases Operation.placed_of_binary hError with
        ⟨rfl, hPlaced⟩
      exact ⟨hSlots (by simp [Expr.slots]), hPlaced⟩
  | logical left operator right =>
      intro value error hError
      rcases Operation.placed_of_decides hError with
        ⟨rfl, hPlaced⟩
      exact ⟨hSlots (by simp [Expr.slots]), hPlaced⟩
  | var name =>
      exact ⟨hSlots (by simp [Expr.slots]), hCanonical⟩
  | assign name value =>
      exact ⟨hSlots (by simp [Expr.slots]), hCanonical.1⟩

/- An expression fails at one of the tokens it keeps. -/
theorem failsIn_among
    {e : Expr}
    (hCanonical : e.Canonical)
    (hSlots : e.slots ⊆ slots) :
    FailsIn (IsAmong slots) e.eval := by
  apply failsIn_eval
  intro part hMem
  apply (hCanonical.of_mem_parts hMem).stepFailsIn_among
  exact
    List.Subset.trans (slots_subset_of_mem_parts hMem) hSlots

end Expr

namespace Stmt

open RuntimeError (IsAmong)

/- Statements fail at one of the tokens they keep. -/
theorem failsIn_execAll_among
    {W : Type}
    [Writer W]
    (allowance : Nat)
    {body : List Stmt}
    (hCanonical : CanonicalAll body) :
    FailsIn (Stop.IsIn (IsAmong (slotsAll body)))
      (execAll allowance body : Execution W Unit) := by
  apply failsIn_execAll
  refine ⟨?_, ?_⟩
  · intro s hMem e hExpression
    have hPart := hCanonical.of_mem_partsAll hMem
    apply
      Expr.failsIn_among
        (hPart.of_mem_expressions hExpression)
    exact
      List.Subset.trans
        (slots_subset_of_mem_expressions hExpression)
        (slots_subset_of_mem_partsAll hMem)
  · intro keyword value hMem error _
    have hPart := hCanonical.of_mem_partsAll hMem
    refine ⟨?_, hPart.1⟩
    exact
      slots_subset_of_mem_partsAll hMem
        (List.mem_cons_self ..)

end Stmt

end OcScript

------------------------------------------------------------
-- Runs That Fail
------------------------------------------------------------

namespace OcScript

/- Parse errors are reported at scanned tokens. -/
theorem isFrom_of_mem_diagnostics
    {table : KeywordTable}
    {source : String}
    {token : Token}
    {message : String}
    (hMem :
      .parse token message ∈
        (check table source).diagnostics) :
    token.IsFrom table source := by
  apply Token.isFrom_of_mem
  rcases List.mem_append.mp hMem with hScan | hParse
  · rcases List.mem_map.mp hScan with ⟨e, -, hReport⟩
    cases hReport
  · rcases List.mem_map.mp hParse with ⟨e, hError, hReport⟩
    cases hReport
    rw [ofTokens_scan] at hError
    rw [tokens_scan]
    exact Parsed.mem_of_mem_errors_ofBody hError

namespace Run

variable {W : Type}
variable [Writer W]

@[simp] theorem program_ofProgram
    (allowance : Nat)
    (program : Program)
    (machine : Machine W) :
    (ofProgram allowance program machine).program =
      program := by
  simp only [ofProgram]
  split <;> rfl

/- A program that is run is not turned away. -/
@[simp] theorem isRejected_ofProgram
    (allowance : Nat)
    (program : Program)
    (machine : Machine W) :
    (ofProgram allowance program
      machine).outcome.isRejected = false := by
  simp only [ofProgram]
  split <;> rfl

/- The error of a writer that could not be flushed. -/
def flushFailure
    (error : SinkError) :
    RuntimeError :=
  ⟨Token.atEnd 0, .sink error⟩

/-
  How a run ended tells how its statements ended: they all
  reached their end, also if the writer could not be flushed
  then, or they failed, or ran out of the allowance.
-/
theorem ofProgram_cases
    (allowance : Nat)
    (program : Program)
    (machine : Machine W) :
    let run := ofProgram allowance program machine
    let result := Stmt.execAll allowance program machine
    (∃ ended,
      result = .ok () ended ∧
        run.machine.scopes = ended.scopes ∧
        (run.outcome = .ok ∨
          ∃ error,
            run.outcome = .failed (flushFailure error) ∧
              Writer.flush ended.sink =
                .error error run.machine.sink)) ∨
      (∃ error,
        result = .error (.failure error) run.machine ∧
          run.outcome = .failed error) ∨
      (result = .error .outOfAllowance run.machine ∧
        run.outcome = .unfinished) := by
  intro run result
  simp only [run, result, ofProgram, Execution.run, bind,
    EStateM.bind]
  cases Stmt.execAll allowance program machine with
  | ok _ ended =>
      refine .inl ⟨ended, rfl, ?_⟩
      simp only [Execution.useSink]
      cases Writer.flush ended.sink with
      | ok _ sink =>
          exact ⟨rfl, .inl rfl⟩
      | error error sink =>
          exact ⟨rfl, .inr ⟨error, rfl, rfl⟩⟩
  | error stop after =>
      cases stop with
      | failure error =>
          exact .inr (.inl ⟨error, rfl, rfl⟩)
      | outOfAllowance =>
          exact .inr (.inr ⟨rfl, rfl⟩)

/- A run that failed did so in its statements or after. -/
theorem cases_of_failed
    {allowance : Nat}
    {program : Program}
    {machine : Machine W}
    {error : RuntimeError}
    (hFailed :
      (ofProgram allowance program machine).outcome =
        .failed error) :
    let after := (ofProgram allowance program machine).machine
    Stmt.execAll allowance program machine =
        .error (.failure error) after ∨
      ∃ ended sinkError,
        Stmt.execAll allowance program machine =
            .ok () ended ∧
          Writer.flush ended.sink =
            .error sinkError after.sink ∧
          after.scopes = ended.scopes ∧
          error = flushFailure sinkError := by
  intro after
  rcases ofProgram_cases allowance program machine with
    ⟨ended, hEnded, hScopes, hOk | ⟨sinkError, hFlush, hSink⟩⟩ |
      ⟨found, hError, hFound⟩ | ⟨-, hUnfinished⟩
  · rw [hFailed] at hOk
    cases hOk
  · rw [hFailed] at hFlush
    cases hFlush
    exact
      .inr ⟨ended, sinkError, hEnded, hSink, hScopes, rfl⟩
  · rw [hFailed] at hFound
    cases hFound
    exact .inl hError
  · rw [hFailed] at hUnfinished
    cases hUnfinished

/- A failing statement of a clean source blames its tokens. -/
theorem among_body_of_error
    {table : KeywordTable}
    {source : String}
    (hClean : (check table source).diagnostics = [])
    {allowance : Nat}
    {machine after : Machine W}
    {error : RuntimeError}
    (hError :
      Stmt.execAll allowance (check table source).program
        machine = .error (.failure error) after) :
    error.token ∈ (scan table source).body ∧
      error.IsPlaced := by
  rcases written_of_clean hClean with ⟨hCanonical, hWrites⟩
  have hAmong :
      error.IsAmong
        (Stmt.slotsAll (check table source).program) :=
    Stmt.failsIn_execAll_among allowance hCanonical _ _ _
      hError
  exact ⟨hWrites.mem_of_kept hAmong.kept, hAmong.placed⟩

/-
  Every error points into its source.

  A parse error is reported at a token scanned from the
  source, and what turns a source away is what its check
  reports.  A run fails in its statements, at a token
  scanned from the source, or after them, for a writer that
  cannot be flushed, at a token of no line.  An error about
  a name that is not bound gives the lexeme of its token,
  which is an identifier, and no other error reads like it,
  unless the writer that it came from says so.
-/
theorem errors_point_into_source
    (table : KeywordTable)
    (allowance : Nat)
    (source : String)
    (machine : Machine W) :
    let checked := check table source
    let run := ofSource table allowance source machine
    (∀ token message,
      .parse token message ∈ checked.diagnostics →
      token.IsFrom table source) ∧
      (∀ diagnostics,
        run.outcome = .rejected diagnostics →
        diagnostics = checked.diagnostics) ∧
      ∀ error,
        run.outcome = .failed error →
        (Stmt.execAll allowance run.program machine =
              .error (.failure error) run.machine ∧
            error.token.IsFrom table source ∨
          ∃ ended sinkError,
            Stmt.execAll allowance run.program machine =
                .ok () ended ∧
              Writer.flush ended.sink =
                .error sinkError run.machine.sink ∧
              run.machine.scopes = ended.scopes ∧
              error = ⟨⟨.eof, "", 0⟩, .sink sinkError⟩) ∧
        (error.cause = .undefinedVariable →
          error.token.kind = .identifier ∧
            error.message =
              "Undefined variable '" ++
                error.token.lexeme ++ "'.") ∧
        ∀ name,
          error.message =
            "Undefined variable '" ++ name ++ "'." →
          (error.token.lexeme = name ∧
              error.token.kind = .identifier) ∨
            ∃ sinkError,
              error.cause = .sink sinkError ∧
                Writer.Says W sinkError := by
  intro checked run
  refine ⟨?_, ?_, ?_⟩
  · intro token message hMem
    exact isFrom_of_mem_diagnostics hMem
  · intro diagnostics hRejected
    simp only [run, ofSource] at hRejected
    split at hRejected
    · have hStarted :=
        isRejected_ofProgram allowance checked.program machine
      rw [hRejected] at hStarted
      cases hStarted
    · cases hRejected
      rfl
  · intro error hFailed
    have hAccepted : run.outcome.isRejected = false := by
      rw [hFailed]
      rfl
    rcases clean_of_not_isRejected hAccepted with
      ⟨hClean, hRun⟩
    simp only [run, hRun] at hFailed ⊢
    rw [program_ofProgram]
    have hSaid := isSaid_of_failed hFailed
    have hPlace := cases_of_failed hFailed
    have hIdentifier :
        error.cause = .undefinedVariable →
        error.token.kind = .identifier := by
      intro hCause
      rcases hPlace with hError | ⟨_, _, _, _, _, rfl⟩
      · have hPlaced :=
          (among_body_of_error hClean hError).2
        rwa [RuntimeError.IsPlaced, hCause] at hPlaced
      · cases hCause
    refine ⟨?_, ?_, ?_⟩
    · refine hPlace.imp_left fun hError => ⟨hError, ?_⟩
      apply Token.isFrom_of_mem
      rw [tokens_scan]
      exact
        List.mem_append_left _
          (among_body_of_error hClean hError).1
    · intro hCause
      refine ⟨hIdentifier hCause, ?_⟩
      rw [RuntimeError.message, hCause]
    · intro name hMessage
      rcases hSaid.undefinedVariable_or_said hMessage with
        ⟨hCause, hName⟩ | hSays
      · exact .inl ⟨hName, hIdentifier hCause⟩
      · exact .inr hSays

/- A loop in a block that reads an unbound name. -/
def nestedName : String :=
  "var a = 1;\n{ mentre (a == 1) { est b; } }"

/- A print statement with a parenthesis left open. -/
def openParenthesis : String :=
  "var a = 1;\n\nest (a;"

/-
  The name is missed on the second line, the parenthesis on
  the third one.
-/
theorem errors_point_into_source_nestedName :
    let machine := Machine.fresh Sink.unbounded
    let run := ofSource .standard 1 nestedName machine
    let blamed : Token := ⟨.symbol .semicolon, ";", 3⟩
    (∃ error,
      run.outcome = .failed error ∧
        error.message = "Undefined variable 'b'." ∧
        error.token = ⟨.identifier, "b", 2⟩ ∧
        error.token.IsFrom .standard nestedName) ∧
      (∃ message,
        .parse blamed message ∈
          (check .standard openParenthesis).diagnostics) ∧
      blamed.IsFrom .standard openParenthesis := by
  intro machine run blamed
  refine ⟨?_, ?_⟩
  · let error : RuntimeError :=
      ⟨⟨.identifier, "b", 2⟩, .undefinedVariable⟩
    have hFailed : run.outcome = .failed error := by
      decide +kernel
    have hPoints :=
      errors_point_into_source .standard 1 nestedName machine
    rcases hPoints with ⟨-, -, hRuns⟩
    rcases (hRuns error hFailed).1 with
      hStopped | ⟨_, _, _, _, _, hFlush⟩
    · exact ⟨error, hFailed, rfl, rfl, hStopped.2⟩
    · have hLine : error.token.line = 0 := by
        rw [hFlush]
      exact absurd hLine (by decide)
  · have hMem :
        .parse blamed "Expect \")\" after expression." ∈
          (check .standard openParenthesis).diagnostics := by
      decide +kernel
    have hPoints :=
      errors_point_into_source .standard 1 openParenthesis
        machine
    exact ⟨⟨_, hMem⟩, hPoints.1 _ _ hMem⟩

end Run

end OcScript
