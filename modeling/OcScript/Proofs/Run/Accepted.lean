import OcScript.Proofs.Exec.Failures
import OcScript.Proofs.Parse.Join
import OcScript.Run

/-
  This file proves that a source that is not turned away
  runs without the failures that only a malformed program
  could have.

  The program of such a source is canonical, so nothing in
  it was skipped, and every operator stands where it has a
  meaning.  What is left to go wrong is a value of the wrong
  kind, a name that is not bound, and the writer.

  Key definitions include:
    * `OcScript.RuntimeError.IsSupported`

  Key theorems include:
    * `OcScript.Expr.failsIn_of_canonical`
    * `OcScript.Expr.Canonical.of_mem_parts`
    * `OcScript.Stmt.CanonicalAll.of_mem_partsAll`
    * `OcScript.Run.cause_of_message`
    * `OcScript.Run.accepted_run_is_supported`
-/

------------------------------------------------------------
-- Supported Operators
------------------------------------------------------------

namespace OcScript

namespace RuntimeError

/- The error is not about an operator without a meaning. -/
def IsSupported
    (e : RuntimeError) :
    Prop :=
  e.cause ≠ .unsupportedOperator

end RuntimeError

end OcScript

namespace OcScript

namespace Operation

open Parse (isUnaryOperator isTightOperator)

variable {operator : Token}
variable {error : RuntimeError}

theorem isSupported_of_unary
    (hOperator : isUnaryOperator operator = true)
    {operand : Value}
    (hError : unary operator operand = .error error) :
    error.IsSupported := by
  have hKind :
      operator.kind = .symbol .bang ∨
        operator.kind = .symbol .minus := by
    simpa [isUnaryOperator, Token.isSymbol] using hOperator
  unfold unary at hError
  split at hError
  · cases hError
  · split at hError
    · cases hError
    · cases hError
      intro hCause
      cases hCause
  · rename_i hBang hMinus
    rcases hKind with hKind | hKind
    · exact absurd hKind hBang
    · exact absurd hKind hMinus

/- The sum is the only tight operator with its own rule. -/
theorem kind_eq_plus_of_onNumbers?
    (hOperator : isTightOperator operator = true)
    (hNone : onNumbers? operator.kind = none) :
    operator.kind = .symbol .plus := by
  have hKind := of_decide_eq_true hOperator
  simp only [List.mem_cons, List.not_mem_nil, or_false]
    at hKind
  rcases hKind with hPlus | hKind | hKind | hKind | hKind |
    hKind | hKind | hKind
  · exact hPlus
  all_goals
    rw [hKind] at hNone
    cases hNone

theorem isSupported_of_binary
    (hOperator :
      isTightOperator operator = true ∨
        Level.equality.accepts operator = true)
    {left right : Value}
    (hError : binary operator left right = .error error) :
    error.IsSupported := by
  unfold binary at hError
  split at hError
  · unfold add at hError
    split at hError
    · cases hError
    · cases hError
    · cases hError
      intro hCause
      cases hCause
  · cases hError
  · cases hError
  · rename_i hPlus hEqual hBang
    split at hError
    · rename_i hNone
      rcases hOperator with hTight | hEquality
      · exact
          absurd (kind_eq_plus_of_onNumbers? hTight hNone)
            hPlus
      · have hKind := of_decide_eq_true hEquality
        simp only [Level.operators, List.mem_cons,
          List.not_mem_nil, or_false] at hKind
        rcases hKind with hKind | hKind
        · exact absurd hKind hBang
        · exact absurd hKind hEqual
    · split at hError
      · cases hError
      · cases hError
        intro hCause
        cases hCause

theorem isSupported_of_decides
    (hOperator :
      Level.conjunction.accepts operator = true ∨
        Level.disjunction.accepts operator = true)
    {left : Value}
    (hError : decides operator left = .error error) :
    error.IsSupported := by
  unfold decides at hError
  split at hError
  · cases hError
  · cases hError
  · rename_i hOr hAnd
    rcases hOperator with hAccepted | hAccepted
    · exact
        absurd
          (List.mem_singleton.mp
            (of_decide_eq_true hAccepted)) hAnd
    · exact
        absurd
          (List.mem_singleton.mp
            (of_decide_eq_true hAccepted)) hOr

end Operation

end OcScript

------------------------------------------------------------
-- Canonical Programs
------------------------------------------------------------

namespace OcScript

namespace Expr

open RuntimeError (IsSupported)

/- The parts of a canonical expression are canonical. -/
theorem Canonical.of_mem_parts
    {e part : Expr}
    (hCanonical : e.Canonical)
    (hMem : part ∈ e.parts) :
    part.Canonical := by
  induction e with
  | literal value =>
      rw [List.mem_singleton.mp hMem]
      exact hCanonical
  | var name =>
      rw [List.mem_singleton.mp hMem]
      exact hCanonical
  | group inner ih =>
      rcases List.mem_cons.mp hMem with rfl | hMem
      · exact hCanonical
      · exact ih hCanonical hMem
  | unary operator operand ih =>
      rcases List.mem_cons.mp hMem with rfl | hMem
      · exact hCanonical
      · exact ih hCanonical.2.2 hMem
  | binary left operator right leftIH rightIH =>
      rcases List.mem_cons.mp hMem with rfl | hMem
      · exact hCanonical
      · rcases List.mem_append.mp hMem with hMem | hMem
        · exact leftIH hCanonical.2.2.1 hMem
        · exact rightIH hCanonical.2.2.2 hMem
  | logical left operator right leftIH rightIH =>
      rcases List.mem_cons.mp hMem with rfl | hMem
      · exact hCanonical
      · rcases List.mem_append.mp hMem with hMem | hMem
        · exact leftIH hCanonical.2.1 hMem
        · exact rightIH hCanonical.2.2 hMem
  | assign name value ih =>
      rcases List.mem_cons.mp hMem with rfl | hMem
      · exact hCanonical
      · exact ih hCanonical.2 hMem

/- The operators of a canonical expression have meanings. -/
theorem Canonical.stepFailsIn
    {e : Expr}
    (hCanonical : e.Canonical) :
    e.StepFailsIn IsSupported := by
  cases e with
  | literal value =>
      trivial
  | group inner =>
      trivial
  | unary operator operand =>
      intro value error hError
      exact Operation.isSupported_of_unary hCanonical.1 hError
  | binary left operator right =>
      intro leftValue rightValue error hError
      exact
        Operation.isSupported_of_binary
          (hCanonical.1.imp And.left And.left) hError
  | logical left operator right =>
      intro value error hError
      exact
        Operation.isSupported_of_decides
          (hCanonical.1.imp And.left And.left) hError
  | var name =>
      intro hCause
      cases hCause
  | assign name value =>
      intro hCause
      cases hCause

theorem failsIn_of_canonical
    {e : Expr}
    (hCanonical : e.Canonical) :
    FailsIn IsSupported e.eval := by
  apply failsIn_eval
  intro part hMem
  exact (hCanonical.of_mem_parts hMem).stepFailsIn

end Expr

namespace Stmt

/- The parts of a canonical statement are canonical. -/
theorem Canonical.of_mem_parts
    {s part : Stmt}
    (hCanonical : s.Canonical)
    (hMem : part ∈ s.parts) :
    part.Canonical := by
  induction s with
  | expression value =>
      rw [List.mem_singleton.mp hMem]
      exact hCanonical
  | print keyword value =>
      rw [List.mem_singleton.mp hMem]
      exact hCanonical
  | declare name initial =>
      rw [List.mem_singleton.mp hMem]
      exact hCanonical
  | block body ih =>
      rcases List.mem_cons.mp hMem with rfl | hMem
      · exact hCanonical
      · rw [partsAll_eq_flatMap, List.mem_flatMap] at hMem
        rcases hMem with ⟨s, hBody, hPart⟩
        exact
          ih s hBody (canonicalAll_iff.mp hCanonical s hBody)
            hPart
  | ifThen condition thenBranch ih =>
      rcases List.mem_cons.mp hMem with rfl | hMem
      · exact hCanonical
      · exact ih hCanonical.2.1 hMem
  | ifElse condition thenBranch elseBranch thenIH elseIH =>
      rcases List.mem_cons.mp hMem with rfl | hMem
      · exact hCanonical
      · rcases List.mem_append.mp hMem with hMem | hMem
        · exact thenIH hCanonical.2.1.1 hMem
        · exact elseIH hCanonical.2.2.1 hMem
  | whileDo condition body ih =>
      rcases List.mem_cons.mp hMem with rfl | hMem
      · exact hCanonical
      · exact ih hCanonical.2.1 hMem
  | skipped =>
      cases hCanonical

theorem CanonicalAll.of_mem_partsAll
    {body : List Stmt}
    (hCanonical : CanonicalAll body)
    {part : Stmt}
    (hMem : part ∈ partsAll body) :
    part.Canonical := by
  rw [partsAll_eq_flatMap, List.mem_flatMap] at hMem
  rcases hMem with ⟨s, hBody, hPart⟩
  exact
    (canonicalAll_iff.mp hCanonical s hBody).of_mem_parts
      hPart

/- The expressions of a canonical statement are canonical. -/
theorem Canonical.of_mem_expressions
    {s : Stmt}
    (hCanonical : s.Canonical)
    {e : Expr}
    (hMem : e ∈ s.expressions) :
    e.Canonical := by
  cases s with
  | expression value =>
      rw [List.mem_singleton.mp hMem]
      exact hCanonical
  | print keyword value =>
      rw [List.mem_singleton.mp hMem]
      exact hCanonical.2
  | declare name initial =>
      cases initial with
      | none =>
          cases hMem
      | some initial =>
          rw [List.mem_singleton.mp hMem]
          exact hCanonical.2
  | block body =>
      cases hMem
  | ifThen condition thenBranch =>
      rw [List.mem_singleton.mp hMem]
      exact hCanonical.1
  | ifElse condition thenBranch elseBranch =>
      rw [List.mem_singleton.mp hMem]
      exact hCanonical.1
  | whileDo condition body =>
      rw [List.mem_singleton.mp hMem]
      exact hCanonical.1
  | skipped =>
      cases hMem

end Stmt

end OcScript

------------------------------------------------------------
-- Accepted Sources
------------------------------------------------------------

namespace OcScript

open RuntimeError (IsSupported)

/- What is left to go wrong is told by four messages. -/
theorem RuntimeError.IsSupported.message_cases
    {e : RuntimeError}
    (hSupported : e.IsSupported)
    (hSink : ∀ error, e.cause ≠ .sink error) :
    e.message = "Operand must be a number" ∨
      e.message = "Operands must be number" ∨
      e.message =
        "Operands must be two numbers or two strings." ∨
      e.message =
        "Undefined variable '" ++ e.token.lexeme ++ "'." := by
  rcases e with ⟨token, cause⟩
  cases cause with
  | operandNotNumber =>
      exact .inl rfl
  | operandsNotNumbers =>
      exact .inr (.inl rfl)
  | operandsNotAddable =>
      exact .inr (.inr (.inl rfl))
  | undefinedVariable =>
      exact .inr (.inr (.inr rfl))
  | unsupportedOperator =>
      exact absurd rfl hSupported
  | sink error =>
      exact absurd rfl (hSink error)

/- A canonical program fails only in supported ways. -/
theorem Execution.failsIn_run_supported
    {W : Type}
    [Writer W]
    (allowance : Nat)
    {program : Program}
    (hCanonical : Stmt.CanonicalAll program) :
    FailsIn (Stop.IsIn IsSupported)
      (run allowance program : Execution W Unit) := by
  apply failsIn_run
  · refine ⟨?_, ?_⟩
    · intro s hMem e hExpression
      apply Expr.failsIn_of_canonical
      exact
        (hCanonical.of_mem_partsAll hMem).of_mem_expressions
          hExpression
    · intro keyword value _ error _ hCause
      cases hCause
  · intro error _ hCause
    cases hCause

namespace Run

variable {W : Type}
variable [Writer W]

/- A run that failed is an execution that failed. -/
theorem run_eq_error_of_failed
    {allowance : Nat}
    {program : Program}
    {machine : Machine W}
    {error : RuntimeError}
    (hFailed :
      (ofProgram allowance program machine).outcome =
        .failed error) :
    ∃ after,
      Execution.run allowance program machine =
        .error (.failure error) after := by
  unfold ofProgram at hFailed
  cases hResult : Execution.run allowance program machine with
  | ok _ after =>
      rw [hResult] at hFailed
      cases hFailed
  | error stop after =>
      rw [hResult] at hFailed
      cases stop with
      | failure found =>
          cases hFailed
          exact ⟨after, rfl⟩
      | outOfAllowance =>
          cases hFailed

/- If a run blames its writer, then the writer says so. -/
theorem isSaid_of_failed
    {allowance : Nat}
    {program : Program}
    {machine : Machine W}
    {error : RuntimeError}
    (hFailed :
      (ofProgram allowance program machine).outcome =
        .failed error) :
    error.IsSaid W := by
  rcases run_eq_error_of_failed hFailed with ⟨after, hError⟩
  exact Execution.failsIn_run_said allowance _ _ _ _ hError

/- A canonical program fails for the reasons left. -/
theorem isSupported_of_failed
    {allowance : Nat}
    {program : Program}
    (hCanonical : Stmt.CanonicalAll program)
    {machine : Machine W}
    {error : RuntimeError}
    (hFailed :
      (ofProgram allowance program machine).outcome =
        .failed error) :
    error.IsSupported := by
  rcases run_eq_error_of_failed hFailed with ⟨after, hError⟩
  exact
    Execution.failsIn_run_supported allowance hCanonical _ _ _
      hError

/-
  On a sink, an error that reads like one about an operator
  or about a name is one.
-/
theorem cause_of_message
    {allowance : Nat}
    {program : Program}
    {machine : Machine Sink}
    {error : RuntimeError}
    (hFailed :
      (ofProgram allowance program machine).outcome =
        .failed error)
    (name : String) :
    (error.message =
        "Unsupported operator '" ++ name ++ "'." →
      error.cause = .unsupportedOperator) ∧
      (error.message =
          "Undefined variable '" ++ name ++ "'." →
        error.cause = .undefinedVariable ∧
          error.token.lexeme = name) := by
  have hSaid := isSaid_of_failed hFailed
  -- What a sink says starts with a small letter.
  have hSink :
      error.message.toList.head? = some 'U' →
      ∀ sinkError,
        error.cause = .sink sinkError →
        ¬ Writer.Says Sink sinkError := by
    intro hFirst sinkError hCause hSays
    simp only [RuntimeError.message, hCause] at hFirst
    rcases Sink.says_iff.mp hSays with rfl | rfl
    · exact absurd hFirst (by decide)
    · exact absurd hFirst (by decide)
  refine ⟨?_, ?_⟩
  · intro hMessage
    rcases hSaid.unsupportedOperator_or_said hMessage with
      hCause | ⟨sinkError, hCause, hSays⟩
    · exact hCause
    · have hFirst : error.message.toList.head? = some 'U' := by
        simp [hMessage]
      exact absurd hSays (hSink hFirst sinkError hCause)
  · intro hMessage
    rcases hSaid.undefinedVariable_or_said hMessage with
      hName | ⟨sinkError, hCause, hSays⟩
    · exact hName
    · have hFirst : error.message.toList.head? = some 'U' := by
        simp [hMessage]
      exact absurd hSays (hSink hFirst sinkError hCause)

/- A source that is not turned away is clean and run. -/
theorem clean_of_not_isRejected
    {table : KeywordTable}
    {allowance : Nat}
    {source : String}
    {machine : Machine W}
    (hAccepted :
      (ofSource table allowance source
        machine).outcome.isRejected = false) :
    (check table source).diagnostics = [] ∧
      ofSource table allowance source machine =
        ofProgram allowance (check table source).program
          machine := by
  unfold ofSource at hAccepted ⊢
  by_cases hClean :
      (check table source).diagnostics.isEmpty = true
  · rw [if_pos hClean]
    exact ⟨List.isEmpty_iff.mp hClean, rfl⟩
  · rw [if_neg hClean] at hAccepted
    cases hAccepted

/-
  A source that is not turned away has a program in which
  nothing was skipped, at any depth.  Its run does not fail
  for an operator without a meaning, whatever it prints to,
  and if an error reads as if it did, then the writer that
  it came from says so.  An error that came from no writer
  says one of four things.  No evaluation of any expression
  of the program, in whatever scopes, fails for an operator
  without a meaning.
-/
theorem accepted_run_is_supported
    (table : KeywordTable)
    (allowance : Nat)
    (source : String)
    (machine : Machine W)
    (hAccepted :
      (ofSource table allowance source
        machine).outcome.isRejected = false) :
    let run := ofSource table allowance source machine
    Stmt.skipped ∉ Stmt.partsAll run.program ∧
      (∀ error,
        run.outcome = .failed error →
        error.cause ≠ .unsupportedOperator ∧
          (∀ name,
            error.message =
              "Unsupported operator '" ++ name ++ "'." →
            ∃ sinkError,
              error.cause = .sink sinkError ∧
                Writer.Says W sinkError) ∧
          ((∀ sinkError, error.cause ≠ .sink sinkError) →
            error.message = "Operand must be a number" ∨
            error.message = "Operands must be number" ∨
            error.message =
              "Operands must be two numbers or two strings." ∨
            error.message =
              "Undefined variable '" ++
                error.token.lexeme ++ "'.")) ∧
      ∀ s ∈ Stmt.partsAll run.program,
        ∀ e ∈ s.expressions,
          ∀ part ∈ e.parts,
            ∀ scopes error after,
              part.eval scopes = .error error after →
              error.cause ≠ .unsupportedOperator := by
  intro run
  rcases clean_of_not_isRejected hAccepted with
    ⟨hClean, hRun⟩
  have hCanonical := (written_of_clean hClean).1
  have hProgram :
      run.program = (check table source).program := by
    simp only [run, hRun, ofProgram]
    split <;> rfl
  rw [hProgram]
  refine ⟨?_, ?_, ?_⟩
  · intro hSkipped
    exact hCanonical.of_mem_partsAll hSkipped
  · intro error hFailed
    simp only [run, hRun] at hFailed
    have hSupported :=
      isSupported_of_failed hCanonical hFailed
    have hSaid := isSaid_of_failed hFailed
    refine ⟨hSupported, ?_, hSupported.message_cases⟩
    intro name hMessage
    rcases hSaid.unsupportedOperator_or_said hMessage with
      hCause | hSays
    · exact absurd hCause hSupported
    · exact hSays
  · intro s hMem e hExpression part hPart
    apply Expr.failsIn_of_canonical
    exact
      ((hCanonical.of_mem_partsAll hMem).of_mem_expressions
        hExpression).of_mem_parts hPart

/- A loop that negates a string in its second turn. -/
def failingTurn : String :=
  "var a = 1; mentre (nul == nul) " ++
    "se (a == 1) a = \"b\"; senon est -a;"

theorem accepted_run_is_supported_failingTurn :
    let run :=
      ofSource .standard 2 failingTurn
        (Machine.fresh Sink.unbounded)
    run.outcome.isRejected = false ∧
      Stmt.skipped ∉ Stmt.partsAll run.program ∧
      ∃ error,
        run.outcome = .failed error ∧
          error.message = "Operand must be a number" ∧
          error.token.lexeme = "-" := by
  intro run
  have hAccepted : run.outcome.isRejected = false := by
    decide +kernel
  have hSupported :=
    accepted_run_is_supported .standard 2 failingTurn
      (Machine.fresh Sink.unbounded) hAccepted
  have hFailed :
      run.outcome =
        .failed
          ⟨⟨.symbol .minus, "-", 1⟩, .operandNotNumber⟩ := by
    decide +kernel
  exact
    ⟨hAccepted, hSupported.1, _, hFailed, rfl, rfl⟩

end Run

end OcScript
