import OcScript.Exec
import OcScript.Proofs.Trees

/-
  This file says where the failures of an execution come
  from.

  An expression fails in the step that one of its parts
  takes last, and an execution fails in an expression or
  when a print statement writes.  So what holds of these
  failures, at any depth of a program, holds of the failure
  that ends a run.  What a writer says when it fails is up
  to the writer.

  Key definitions include:
    * `OcScript.FailsIn`
    * `OcScript.Writer.Says`
    * `OcScript.Expr.StepFailsIn`
    * `OcScript.Stop.IsIn`
    * `OcScript.Stmt.PartsFailIn`

  Key theorems include:
    * `OcScript.FailsIn.bind`
    * `OcScript.Sink.says_iff`
    * `OcScript.Expr.failsIn_eval`
    * `OcScript.Execution.failsIn_repeatWhile`
    * `OcScript.Stmt.failsIn_exec`
    * `OcScript.Stmt.failsIn_execAll`
    * `OcScript.Execution.failsIn_run`
    * `OcScript.RuntimeError.IsSaid.undefinedVariable_or_said`
    * `OcScript.Execution.failsIn_run_said`
-/

------------------------------------------------------------
-- Errors of a Computation
------------------------------------------------------------

namespace OcScript

/- If the computation fails, then with an error in `P`. -/
def FailsIn
    {ε σ α : Type}
    (P : ε → Prop)
    (x : EStateM ε σ α) :
    Prop :=
  ∀ s error after, x s = .error error after → P error

namespace FailsIn

variable {ε σ α β : Type}
variable {P : ε → Prop}

theorem pure
    (a : α) :
    FailsIn P (pure a : EStateM ε σ α) := by
  intro s error after hError
  cases hError

theorem throw
    {error : ε}
    (hError : P error) :
    FailsIn P (throw error : EStateM ε σ α) := by
  intro s thrown after hThrown
  cases hThrown
  exact hError

theorem ofExcept
    {x : Except ε α}
    (hErrors : ∀ error, x = .error error → P error) :
    FailsIn P (ofExcept x : EStateM ε σ α) := by
  cases x with
  | ok a =>
      exact FailsIn.pure a
  | error error =>
      exact FailsIn.throw (hErrors error rfl)

/- What comes first fails, or what comes after it does. -/
theorem bind
    {x : EStateM ε σ α}
    {k : α → EStateM ε σ β}
    (hFirst : FailsIn P x)
    (hRest : ∀ a, FailsIn P (k a)) :
    FailsIn P (x >>= k) := by
  intro s error after hError
  simp only [Bind.bind, EStateM.bind] at hError
  cases hResult : x s with
  | ok a between =>
      rw [hResult] at hError
      exact hRest a between error after hError
  | error early between =>
      rw [hResult] at hError
      cases hError
      exact hFirst s error after hResult

theorem map
    {x : EStateM ε σ α}
    (hFirst : FailsIn P x)
    (g : α → β) :
    FailsIn P (g <$> x) := by
  rw [map_eq_pure_bind]
  apply hFirst.bind
  intro a
  exact FailsIn.pure (g a)

end FailsIn

end OcScript

------------------------------------------------------------
-- Errors of a Writer
------------------------------------------------------------

namespace OcScript

/- Some writer of the type fails with the error. -/
inductive Writer.Says
    (W : Type)
    [Writer W]
    (error : SinkError) :
    Prop where
| write
    {bytes : ByteArray}
    {before after : W}
    (hError : write bytes before = .error error after)
| flush
    {before after : W}
    (hError : flush before = .error error after)

/- A sink says that it is full or that it was not flushed. -/
theorem Sink.says_iff
    {error : SinkError} :
    Writer.Says Sink error ↔
      error = .full ∨ error = .notFlushed := by
  refine ⟨?_, ?_⟩
  · rintro (hError | hError)
    · left
      simp only [write_eq, write] at hError
      split at hError
      · cases hError
      · split at hError
        · cases hError
        · cases hError
          rfl
    · right
      simp only [flush_eq, flush] at hError
      split at hError
      · cases hError
      · cases hError
        rfl
  · rintro (rfl | rfl)
    · have hFull :
          write ⟨#[0]⟩ ⟨.empty, some 0, true⟩ =
            .error .full ⟨.empty, some 0, true⟩ := by
        rfl
      exact .write hFull
    · have hFlush :
          flush ⟨.empty, none, false⟩ =
            .error .notFlushed ⟨.empty, none, false⟩ := by
        rfl
      exact .flush hFlush

end OcScript

------------------------------------------------------------
-- Errors of an Expression
------------------------------------------------------------

namespace OcScript

variable {P : RuntimeError → Prop}

namespace Evaluation

/- Reading a name fails only if it is not found. -/
theorem failsIn_read
    {name : Token}
    (hName : P ⟨name, .undefinedVariable⟩) :
    FailsIn P (read name) := by
  intro scopes error after hError
  unfold read Scopes.read at hError
  cases hValue : scopes.get? name.lexeme with
  | some value =>
      rw [hValue] at hError
      cases hError
  | none =>
      rw [hValue] at hError
      cases hError
      exact hName

theorem failsIn_assign
    {name : Token}
    (hName : P ⟨name, .undefinedVariable⟩)
    (value : Value) :
    FailsIn P (assign name value) := by
  intro scopes error after hError
  unfold assign Scopes.assign at hError
  cases hAssigned :
      scopes.assign? name.lexeme value with
  | some assigned =>
      rw [hAssigned] at hError
      cases hError
  | none =>
      rw [hAssigned] at hError
      cases hError
      exact hName

end Evaluation

namespace Expr

/-
  The errors of the last step of an expression, which comes
  after its operands have their values, are in `P`.
-/
def StepFailsIn
    (P : RuntimeError → Prop) :
    Expr → Prop
| .unary operator _ =>
    ∀ operand error,
      Operation.unary operator operand = .error error →
      P error
| .binary _ operator _ =>
    ∀ left right error,
      Operation.binary operator left right =
        .error error →
      P error
| .logical _ operator _ =>
    ∀ left error,
      Operation.decides operator left = .error error →
      P error
| .var name => P ⟨name, .undefinedVariable⟩
| .assign name _ => P ⟨name, .undefinedVariable⟩
| .literal _ => True
| .group _ => True

/- An expression fails where one of its parts does. -/
theorem failsIn_eval
    {e : Expr}
    (hSteps : ∀ part ∈ e.parts, part.StepFailsIn P) :
    FailsIn P e.eval := by
  induction e with
  | literal value =>
      exact FailsIn.pure value
  | group inner ih =>
      rw [parts, List.forall_mem_cons] at hSteps
      exact ih hSteps.2
  | unary operator operand ih =>
      rw [parts, List.forall_mem_cons] at hSteps
      apply (ih hSteps.2).bind
      intro value
      exact FailsIn.ofExcept (hSteps.1 value)
  | binary left operator right leftIH rightIH =>
      rw [parts, List.forall_mem_cons,
        List.forall_mem_append] at hSteps
      apply (leftIH hSteps.2.1).bind
      intro leftValue
      apply (rightIH hSteps.2.2).bind
      intro rightValue
      exact FailsIn.ofExcept (hSteps.1 leftValue rightValue)
  | logical left operator right leftIH rightIH =>
      rw [parts, List.forall_mem_cons,
        List.forall_mem_append] at hSteps
      apply (leftIH hSteps.2.1).bind
      intro leftValue
      apply (FailsIn.ofExcept (hSteps.1 leftValue)).bind
      intro decided
      split
      · exact FailsIn.pure leftValue
      · exact rightIH hSteps.2.2
  | var name =>
      rw [parts, List.forall_mem_singleton] at hSteps
      exact Evaluation.failsIn_read hSteps
  | assign name value ih =>
      rw [parts, List.forall_mem_cons] at hSteps
      apply (ih hSteps.2).bind
      intro newValue
      apply (Evaluation.failsIn_assign hSteps.1 newValue).bind
      intro _
      exact FailsIn.pure newValue

end Expr

end OcScript

------------------------------------------------------------
-- Errors of an Execution
------------------------------------------------------------

namespace OcScript

namespace Stop

/- If the stop is a failure, then one with an error in `P`. -/
def IsIn
    (P : RuntimeError → Prop) :
    Stop → Prop
| .failure error => P error
| .outOfAllowance => True

end Stop

namespace Execution

variable {W : Type}
variable {P : RuntimeError → Prop}

theorem failsIn_evaluate
    {e : Expr}
    (hEval : FailsIn P e.eval) :
    FailsIn (Stop.IsIn P)
      (evaluate e : Execution W Value) := by
  intro machine stop after hStop
  unfold evaluate at hStop
  cases hResult : e.eval machine.scopes with
  | ok value scopes =>
      rw [hResult] at hStop
      cases hStop
  | error error scopes =>
      rw [hResult] at hStop
      cases hStop
      exact hEval _ _ _ hResult

/- The failures of a writer are blamed on one token. -/
theorem failsIn_useSink
    {blamed : Token}
    {action : EStateM SinkError W Unit}
    (hAction :
      FailsIn (fun error => P ⟨blamed, .sink error⟩) action) :
    FailsIn (Stop.IsIn P) (useSink blamed action) := by
  intro machine stop after hStop
  unfold useSink at hStop
  cases hResult : action machine.sink with
  | ok _ sink =>
      rw [hResult] at hStop
      cases hStop
  | error error sink =>
      rw [hResult] at hStop
      cases hStop
      exact hAction _ _ _ hResult

theorem failsIn_declare
    (name : Token)
    (value : Value) :
    FailsIn (Stop.IsIn P)
      (declare name value : Execution W Unit) := by
  intro machine stop after hStop
  cases hStop

theorem failsIn_inNewScope
    {action : Execution W Unit}
    (hAction : FailsIn (Stop.IsIn P) action) :
    FailsIn (Stop.IsIn P) (inNewScope action) := by
  intro machine stop after hStop
  unfold inNewScope at hStop
  cases hResult :
      action
        { machine with scopes := machine.scopes.enter } with
  | ok _ between =>
      rw [hResult] at hStop
      cases hStop
  | error early between =>
      rw [hResult] at hStop
      cases hStop
      exact hAction _ _ _ hResult

theorem failsIn_repeatWhile
    {condition : Execution W Bool}
    {body : Execution W Unit}
    (hCondition : FailsIn (Stop.IsIn P) condition)
    (hBody : FailsIn (Stop.IsIn P) body)
    (allowance : Nat) :
    FailsIn (Stop.IsIn P)
      (repeatWhile allowance condition body) := by
  induction allowance with
  | zero =>
      exact FailsIn.throw trivial
  | succ allowance ih =>
      apply hCondition.bind
      intro again
      cases again with
      | false =>
          exact FailsIn.pure ()
      | true =>
          apply hBody.bind
          intro _
          exact ih

end Execution

end OcScript

------------------------------------------------------------
-- Errors of a Statement
------------------------------------------------------------

namespace OcScript

namespace Stmt

variable {W : Type}
variable [Writer W]
variable {P : RuntimeError → Prop}

/-
  Every expression of the statement, at any depth, and every
  write of its print statements fails with errors in `P`.
-/
structure PartsFailIn
    (W : Type)
    [Writer W]
    (P : RuntimeError → Prop)
    (parts : List Stmt) :
    Prop where
  expression :
    ∀ s ∈ parts, ∀ e ∈ s.expressions, FailsIn P e.eval
  write :
    ∀ keyword value,
      .print keyword value ∈ parts →
      ∀ error,
        Writer.Says W error →
        P ⟨keyword, .sink error⟩

namespace PartsFailIn

/- Fewer parts fail in fewer ways. -/
theorem mono
    {parts fewer : List Stmt}
    (hParts : PartsFailIn W P parts)
    (hFewer : fewer ⊆ parts) :
    PartsFailIn W P fewer := by
  refine ⟨?_, ?_⟩
  · intro s hMem
    exact hParts.expression s (hFewer hMem)
  · intro keyword value hMem
    exact hParts.write keyword value (hFewer hMem)

/- The expressions of the first part fail in `P`. -/
theorem evaluate
    {s : Stmt}
    {rest : List Stmt}
    (hParts : PartsFailIn W P (s :: rest))
    {e : Expr}
    (hMem : e ∈ s.expressions) :
    FailsIn (Stop.IsIn P)
      (Execution.evaluate e : Execution W Value) :=
  Execution.failsIn_evaluate
    (hParts.expression s (List.mem_cons_self ..) e hMem)

end PartsFailIn

/- If the members fail in `P`, so does their list. -/
theorem failsIn_execAll_of_forall
    {allowance : Nat}
    {body : List Stmt}
    (hMembers :
      ∀ s ∈ body,
        FailsIn (Stop.IsIn P)
          (s.exec allowance : Execution W Unit)) :
    FailsIn (Stop.IsIn P)
      (execAll allowance body : Execution W Unit) := by
  induction body with
  | nil =>
      exact FailsIn.pure ()
  | cons s rest ih =>
      rw [List.forall_mem_cons] at hMembers
      apply hMembers.1.bind
      intro _
      exact ih hMembers.2

/- A statement fails only where one of its parts does. -/
theorem failsIn_exec
    (allowance : Nat)
    {s : Stmt}
    (hParts : PartsFailIn W P s.parts) :
    FailsIn (Stop.IsIn P)
      (s.exec allowance : Execution W Unit) := by
  induction s with
  | expression value =>
      apply
        (hParts.evaluate (List.mem_singleton_self value)).bind
      intro _
      exact FailsIn.pure ()
  | print keyword value =>
      apply
        (hParts.evaluate (List.mem_singleton_self value)).bind
      intro printed
      apply Execution.failsIn_useSink
      intro before error after hError
      apply
        hParts.write keyword value (List.mem_singleton_self _)
      exact .write hError
  | declare name initial =>
      cases initial with
      | none =>
          exact Execution.failsIn_declare name .null
      | some initial =>
          apply
            (hParts.evaluate
              (List.mem_singleton_self initial)).bind
          intro value
          exact Execution.failsIn_declare name value
  | block body ih =>
      apply Execution.failsIn_inNewScope
      apply failsIn_execAll_of_forall
      intro s hMem
      apply ih s hMem
      apply hParts.mono
      apply List.subset_cons_of_subset
      exact parts_subset_partsAll hMem
  | ifThen condition thenBranch ih =>
      apply
        (hParts.evaluate
          (List.mem_singleton_self condition)).bind
      intro value
      split
      · exact ih (hParts.mono (List.subset_cons_self ..))
      · exact FailsIn.pure ()
  | ifElse condition thenBranch elseBranch thenIH elseIH =>
      have hInner :=
        hParts.mono (List.subset_cons_self ..)
      apply
        (hParts.evaluate
          (List.mem_singleton_self condition)).bind
      intro value
      split
      · exact
          thenIH (hInner.mono (List.subset_append_left ..))
      · exact
          elseIH (hInner.mono (List.subset_append_right ..))
  | whileDo condition body ih =>
      have hCondition :=
        hParts.evaluate (List.mem_singleton_self condition)
      exact
        Execution.failsIn_repeatWhile
          (hCondition.map Value.truthy)
          (ih (hParts.mono (List.subset_cons_self ..)))
          allowance
  | skipped =>
      exact FailsIn.pure ()

/- So do statements in order. -/
theorem failsIn_execAll
    (allowance : Nat)
    {body : List Stmt}
    (hParts : PartsFailIn W P (partsAll body)) :
    FailsIn (Stop.IsIn P)
      (execAll allowance body : Execution W Unit) := by
  apply failsIn_execAll_of_forall
  intro s hMem
  apply failsIn_exec
  exact hParts.mono (parts_subset_partsAll hMem)

end Stmt

/- A program fails where one of its parts or a flush does. -/
theorem Execution.failsIn_run
    {W : Type}
    [Writer W]
    {P : RuntimeError → Prop}
    (allowance : Nat)
    {program : Program}
    (hParts :
      Stmt.PartsFailIn W P (Stmt.partsAll program))
    (hFlush :
      ∀ error,
        Writer.Says W error →
        P ⟨Token.atEnd 0, .sink error⟩) :
    FailsIn (Stop.IsIn P)
      (run allowance program : Execution W Unit) := by
  apply (Stmt.failsIn_execAll allowance hParts).bind
  intro _
  apply failsIn_useSink
  intro before error after hError
  exact hFlush error (.flush hError)

end OcScript

------------------------------------------------------------
-- Errors of Writers and Others
------------------------------------------------------------

namespace OcScript

namespace RuntimeError

/- The error is that of an operator and its operands. -/
def IsOfOperation
    (e : RuntimeError) :
    Prop :=
  e.cause ∈
    [.operandNotNumber, .operandsNotNumbers,
      .operandsNotAddable, .unsupportedOperator]

/- If a writer is blamed for the error, it says so. -/
def IsSaid
    (W : Type)
    [Writer W]
    (e : RuntimeError) :
    Prop :=
  ∀ error, e.cause = .sink error → Writer.Says W error

/-
  An error reads like one about an operator only if it is
  one, or if a writer says so.
-/
theorem IsSaid.unsupportedOperator_or_said
    {W : Type}
    [Writer W]
    {e : RuntimeError}
    (hSaid : e.IsSaid W)
    {name : String}
    (hMessage :
      e.message = "Unsupported operator '" ++ name ++ "'.") :
    e.cause = .unsupportedOperator ∨
      ∃ error,
        e.cause = .sink error ∧ Writer.Says W error := by
  rcases e with ⟨token, cause⟩
  have hChars := congrArg String.toList hMessage
  cases cause with
  | unsupportedOperator =>
      exact .inl rfl
  | sink error =>
      exact .inr ⟨error, rfl, hSaid error rfl⟩
  | _ =>
      simp [message] at hChars

/- Likewise for a name, which is the lexeme of the token. -/
theorem IsSaid.undefinedVariable_or_said
    {W : Type}
    [Writer W]
    {e : RuntimeError}
    (hSaid : e.IsSaid W)
    {name : String}
    (hMessage :
      e.message = "Undefined variable '" ++ name ++ "'.") :
    (e.cause = .undefinedVariable ∧
        e.token.lexeme = name) ∨
      ∃ error,
        e.cause = .sink error ∧ Writer.Says W error := by
  rcases e with ⟨token, cause⟩
  have hChars := congrArg String.toList hMessage
  cases cause with
  | undefinedVariable =>
      refine .inl ⟨rfl, ?_⟩
      apply String.toList_inj.mp
      simpa [message] using hChars
  | sink error =>
      exact .inr ⟨error, rfl, hSaid error rfl⟩
  | _ =>
      simp [message] at hChars

theorem IsOfOperation.isSaid
    {W : Type}
    [Writer W]
    {e : RuntimeError}
    (hOperation : e.IsOfOperation) :
    e.IsSaid W := by
  intro error hCause
  rw [IsOfOperation, hCause] at hOperation
  simp at hOperation

end RuntimeError

namespace Operation

variable {operator : Token}
variable {error : RuntimeError}

theorem isOfOperation_of_unary
    {operand : Value}
    (hError : unary operator operand = .error error) :
    error.IsOfOperation := by
  unfold unary at hError
  grind [RuntimeError.IsOfOperation]

theorem isOfOperation_of_binary
    {left right : Value}
    (hError : binary operator left right = .error error) :
    error.IsOfOperation := by
  unfold binary add at hError
  grind [RuntimeError.IsOfOperation]

theorem isOfOperation_of_decides
    {left : Value}
    (hError : decides operator left = .error error) :
    error.IsOfOperation := by
  unfold decides at hError
  grind [RuntimeError.IsOfOperation]

end Operation

variable {W : Type}
variable [Writer W]

/- No expression blames a writer. -/
theorem Expr.stepFailsIn_said
    (e : Expr) :
    e.StepFailsIn (RuntimeError.IsSaid W) := by
  cases e with
  | literal value =>
      trivial
  | group inner =>
      trivial
  | unary operator operand =>
      intro value error hError
      exact (Operation.isOfOperation_of_unary hError).isSaid
  | binary left operator right =>
      intro leftValue rightValue error hError
      exact (Operation.isOfOperation_of_binary hError).isSaid
  | logical left operator right =>
      intro value error hError
      exact (Operation.isOfOperation_of_decides hError).isSaid
  | var name =>
      intro error hCause
      cases hCause
  | assign name value =>
      intro error hCause
      cases hCause

/- A run blames its writer for what the writer says. -/
theorem Execution.failsIn_run_said
    (allowance : Nat)
    (program : Program) :
    FailsIn (Stop.IsIn (RuntimeError.IsSaid W))
      (run allowance program : Execution W Unit) := by
  have hBlamed :
      ∀ (token : Token) (error : SinkError),
        Writer.Says W error →
        RuntimeError.IsSaid W ⟨token, .sink error⟩ := by
    intro token error hSays other hCause
    cases hCause
    exact hSays
  apply failsIn_run
  · refine ⟨?_, ?_⟩
    · intro s _ e _
      apply Expr.failsIn_eval
      intro part _
      exact part.stepFailsIn_said
    · intro keyword value _
      exact hBlamed keyword
  · exact hBlamed (Token.atEnd 0)

end OcScript
