import OcScript.Exec
import OcScript.Proofs.Trees

/-
  This file proves that execution reads tokens only by
  their kinds, and the tokens of names by their lexemes.

  When the tokens of a program are changed in any way that
  keeps these, such as moving them to other lines, the
  program does what it did, and only the token of an error
  is changed.  Changing errors commutes with everything an
  execution is built from, so the proof follows the syntax.

  Key definitions include:
    * `OcScript.RuntimeError.relabel`
    * `OcScript.Stop.relabel`

  Key theorems include:
    * `OcScript.Expr.eval_mapTokens`
    * `OcScript.Stmt.exec_mapTokens`
    * `OcScript.Stmt.execAll_mapTokensAll`
-/

------------------------------------------------------------
-- Changed Tokens
------------------------------------------------------------

namespace OcScript

namespace RuntimeError

/- Change the token of an error. -/
def relabel
    (f : Token → Token)
    (e : RuntimeError) :
    RuntimeError :=
  { e with token := f e.token }

/- An error says the same about a token of the same text. -/
theorem message_relabel
    {f : Token → Token}
    (hKeeps : Token.KeepsText f)
    (e : RuntimeError) :
    (e.relabel f).message = e.message := by
  simp only [message, relabel, hKeeps.lexeme]

end RuntimeError

namespace Stop

/- Change the token at which an execution stopped. -/
def relabel
    (f : Token → Token) :
    Stop → Stop
| .failure error => .failure (error.relabel f)
| .outOfAllowance => .outOfAllowance

end Stop

end OcScript

------------------------------------------------------------
-- Changed Errors
------------------------------------------------------------

namespace OcScript

open EStateM (adaptExcept)

section ChangedErrors

variable {ε ε' σ α β : Type}

/- Errors can be changed part by part. -/
theorem adaptExcept_bind
    (change : ε → ε')
    (x : EStateM ε σ α)
    (k : α → EStateM ε σ β) :
    adaptExcept change (x >>= k) =
      adaptExcept change x >>= fun a =>
        adaptExcept change (k a) := by
  funext s
  simp only [adaptExcept, bind, EStateM.bind]
  cases x s with
  | ok a s' =>
      rfl
  | error e s' =>
      rfl

theorem adaptExcept_pure
    (change : ε → ε')
    (a : α) :
    adaptExcept change (pure a : EStateM ε σ α) = pure a :=
  rfl

theorem adaptExcept_map
    (change : ε → ε')
    (g : α → β)
    (x : EStateM ε σ α) :
    adaptExcept change (g <$> x) =
      g <$> adaptExcept change x := by
  funext s
  simp only [adaptExcept, Functor.map, EStateM.map]
  cases x s with
  | ok a s' =>
      rfl
  | error e s' =>
      rfl

theorem adaptExcept_ite
    (change : ε → ε')
    (decided : Bool)
    (x y : EStateM ε σ α) :
    adaptExcept change (if decided then x else y) =
      if decided then
        adaptExcept change x
      else
        adaptExcept change y := by
  cases decided with
  | false =>
      rfl
  | true =>
      rfl

theorem adaptExcept_ofExcept
    (change : ε → ε')
    (x : Except ε α) :
    adaptExcept change (ofExcept x : EStateM ε σ α) =
      ofExcept (x.mapError change) := by
  cases x with
  | ok a =>
      rfl
  | error e =>
      rfl

end ChangedErrors

end OcScript

------------------------------------------------------------
-- Evaluation
------------------------------------------------------------

namespace OcScript

open EStateM (adaptExcept)

variable {f : Token → Token}

namespace Operation

theorem unary_relabel
    (hKinds : ∀ t, (f t).kind = t.kind)
    (operator : Token)
    (operand : Value) :
    unary (f operator) operand =
      (unary operator operand).mapError
        (RuntimeError.relabel f) := by
  unfold unary
  rw [hKinds]
  split
  · rfl
  · split
    · rfl
    · rfl
  · rfl

theorem add_relabel
    (f : Token → Token)
    (operator : Token)
    (left right : Value) :
    add (f operator) left right =
      (add operator left right).mapError
        (RuntimeError.relabel f) := by
  unfold add
  split
  · rfl
  · rfl
  · rfl

theorem binary_relabel
    (hKinds : ∀ t, (f t).kind = t.kind)
    (operator : Token)
    (left right : Value) :
    binary (f operator) left right =
      (binary operator left right).mapError
        (RuntimeError.relabel f) := by
  unfold binary
  rw [hKinds]
  split
  · exact add_relabel f operator left right
  · rfl
  · rfl
  · split
    · rfl
    · split
      · rfl
      · rfl

theorem decides_relabel
    (hKinds : ∀ t, (f t).kind = t.kind)
    (operator : Token)
    (left : Value) :
    decides (f operator) left =
      (decides operator left).mapError
        (RuntimeError.relabel f) := by
  unfold decides
  rw [hKinds]
  split
  · rfl
  · rfl
  · rfl

end Operation

namespace Evaluation

theorem read_relabel
    {name : Token}
    (hName : (f name).lexeme = name.lexeme) :
    read (f name) =
      adaptExcept (RuntimeError.relabel f) (read name) := by
  funext scopes
  simp only [read, adaptExcept, Scopes.read, hName]
  cases scopes.get? name.lexeme with
  | none =>
      rfl
  | some value =>
      rfl

theorem assign_relabel
    {name : Token}
    (hName : (f name).lexeme = name.lexeme)
    (value : Value) :
    assign (f name) value =
      adaptExcept (RuntimeError.relabel f)
        (assign name value) := by
  funext scopes
  simp only [assign, adaptExcept, Scopes.assign, hName]
  cases scopes.assign? name.lexeme value with
  | none =>
      rfl
  | some assigned =>
      rfl

end Evaluation

namespace Expr

/-
  An expression with changed tokens has the same value, or
  fails in the same way at the changed token.
-/
theorem eval_mapTokens
    (hKinds : ∀ t, (f t).kind = t.kind)
    {e : Expr}
    (hNames :
      ∀ t ∈ e.nameTokens, (f t).lexeme = t.lexeme) :
    (e.mapTokens f).eval =
      adaptExcept (RuntimeError.relabel f) e.eval := by
  induction e with
  | literal value =>
      rfl
  | group inner ih =>
      exact ih hNames
  | unary operator operand ih =>
      simp only [mapTokens, eval, ih hNames,
        adaptExcept_bind, adaptExcept_ofExcept,
        Operation.unary_relabel hKinds]
  | binary left operator right leftIH rightIH =>
      rw [nameTokens, List.forall_mem_append] at hNames
      simp only [mapTokens, eval, leftIH hNames.1,
        rightIH hNames.2, adaptExcept_bind,
        adaptExcept_ofExcept,
        Operation.binary_relabel hKinds]
  | logical left operator right leftIH rightIH =>
      rw [nameTokens, List.forall_mem_append] at hNames
      simp only [mapTokens, eval, leftIH hNames.1,
        rightIH hNames.2, adaptExcept_bind,
        adaptExcept_ofExcept, adaptExcept_ite,
        adaptExcept_pure, Operation.decides_relabel hKinds]
  | var name =>
      rw [nameTokens, List.forall_mem_singleton] at hNames
      exact Evaluation.read_relabel hNames
  | assign name value ih =>
      rw [nameTokens, List.forall_mem_cons] at hNames
      simp only [mapTokens, eval, ih hNames.2,
        adaptExcept_bind, adaptExcept_pure,
        Evaluation.assign_relabel hNames.1]

end Expr

end OcScript

------------------------------------------------------------
-- Execution
------------------------------------------------------------

namespace OcScript

open EStateM (adaptExcept)

variable {f : Token → Token}

variable {W : Type}

namespace Execution

theorem evaluate_mapTokens
    (hKinds : ∀ t, (f t).kind = t.kind)
    {e : Expr}
    (hNames :
      ∀ t ∈ e.nameTokens, (f t).lexeme = t.lexeme) :
    (evaluate (e.mapTokens f) : Execution W Value) =
      adaptExcept (Stop.relabel f) (evaluate e) := by
  funext machine
  simp only [evaluate, adaptExcept,
    Expr.eval_mapTokens hKinds hNames]
  cases e.eval machine.scopes with
  | ok value scopes =>
      rfl
  | error error scopes =>
      rfl

theorem useSink_relabel
    (f : Token → Token)
    (blamed : Token)
    (action : EStateM SinkError W Unit) :
    useSink (f blamed) action =
      adaptExcept (Stop.relabel f)
        (useSink blamed action) := by
  funext machine
  simp only [useSink, adaptExcept]
  cases action machine.sink with
  | ok _ sink =>
      rfl
  | error error sink =>
      rfl

theorem printLine_relabel
    [Writer W]
    (f : Token → Token)
    (keyword : Token)
    (text : String) :
    (printLine (f keyword) text : Execution W Unit) =
      adaptExcept (Stop.relabel f)
        (printLine keyword text) :=
  useSink_relabel f keyword _

theorem declare_relabel
    {name : Token}
    (hName : (f name).lexeme = name.lexeme)
    (value : Value) :
    (declare (f name) value : Execution W Unit) =
      adaptExcept (Stop.relabel f)
        (declare name value) := by
  unfold declare
  rw [hName]
  rfl

theorem adaptExcept_inNewScope
    (change : Stop → Stop)
    (action : Execution W Unit) :
    adaptExcept change (inNewScope action) =
      inNewScope (adaptExcept change action) := by
  funext machine
  simp only [adaptExcept, inNewScope]
  cases
      action
        { machine with scopes := machine.scopes.enter } with
  | ok _ after =>
      rfl
  | error stop after =>
      rfl

/- A loop that stops stops in a test or in its body. -/
theorem adaptExcept_repeatWhile
    (f : Token → Token)
    (allowance : Nat)
    (condition : Execution W Bool)
    (body : Execution W Unit) :
    adaptExcept (Stop.relabel f)
        (repeatWhile allowance condition body) =
      repeatWhile allowance
        (adaptExcept (Stop.relabel f) condition)
        (adaptExcept (Stop.relabel f) body) := by
  induction allowance with
  | zero =>
      rfl
  | succ allowance ih =>
      simp only [repeatWhile, adaptExcept_bind,
        adaptExcept_ite, adaptExcept_pure, ih]

end Execution

namespace Stmt

variable [Writer W]

/- If it holds of the members, it holds of the list. -/
theorem execAll_mapTokensAll_of_forall
    {allowance : Nat}
    {body : List Stmt}
    (hMembers :
      ∀ s ∈ body,
        ((s.mapTokens f).exec allowance : Execution W Unit) =
          adaptExcept (Stop.relabel f)
            (s.exec allowance)) :
    (execAll allowance (mapTokensAll f body) :
        Execution W Unit) =
      adaptExcept (Stop.relabel f)
        (execAll allowance body) := by
  induction body with
  | nil =>
      rfl
  | cons s rest ih =>
      rw [List.forall_mem_cons] at hMembers
      simp only [mapTokensAll, execAll, adaptExcept_bind,
        hMembers.1, ih hMembers.2]

/-
  A statement with changed tokens does the same, and stops
  at the changed token if it stops.
-/
theorem exec_mapTokens
    (hKinds : ∀ t, (f t).kind = t.kind)
    (allowance : Nat)
    {s : Stmt}
    (hNames :
      ∀ t ∈ s.nameTokens, (f t).lexeme = t.lexeme) :
    ((s.mapTokens f).exec allowance : Execution W Unit) =
      adaptExcept (Stop.relabel f) (s.exec allowance) := by
  induction s with
  | expression value =>
      simp only [mapTokens, exec, adaptExcept_bind,
        adaptExcept_pure,
        Execution.evaluate_mapTokens hKinds hNames]
  | print keyword value =>
      simp only [mapTokens, exec, adaptExcept_bind,
        Execution.evaluate_mapTokens hKinds hNames,
        Execution.printLine_relabel]
  | declare name initial =>
      cases initial with
      | none =>
          rw [nameTokens, List.forall_mem_singleton] at hNames
          exact Execution.declare_relabel hNames .null
      | some initial =>
          rw [nameTokens, List.forall_mem_cons] at hNames
          simp only [mapTokens, exec, adaptExcept_bind,
            Execution.evaluate_mapTokens hKinds hNames.2,
            Execution.declare_relabel hNames.1]
  | block body ih =>
      have hMembers :
          ∀ s ∈ body,
            ((s.mapTokens f).exec allowance :
                Execution W Unit) =
              adaptExcept (Stop.relabel f)
                (s.exec allowance) := by
        intro s hMem
        apply ih s hMem
        intro t hToken
        exact hNames t (mem_nameTokensAll.mpr ⟨s, hMem, hToken⟩)
      simp only [mapTokens, exec,
        execAll_mapTokensAll_of_forall hMembers,
        Execution.adaptExcept_inNewScope]
  | ifThen condition thenBranch ih =>
      rw [nameTokens, List.forall_mem_append] at hNames
      simp only [mapTokens, exec, ih hNames.2,
        adaptExcept_bind, adaptExcept_ite, adaptExcept_pure,
        Execution.evaluate_mapTokens hKinds hNames.1]
  | ifElse condition thenBranch elseBranch thenIH elseIH =>
      rw [nameTokens, List.forall_mem_append,
        List.forall_mem_append] at hNames
      simp only [mapTokens, exec, thenIH hNames.2.1,
        elseIH hNames.2.2, adaptExcept_bind,
        adaptExcept_ite,
        Execution.evaluate_mapTokens hKinds hNames.1]
  | whileDo condition body ih =>
      rw [nameTokens, List.forall_mem_append] at hNames
      simp only [mapTokens, exec, ih hNames.2,
        Execution.adaptExcept_repeatWhile,
        adaptExcept_map,
        Execution.evaluate_mapTokens hKinds hNames.1]
  | skipped =>
      rfl

/- Statements in order, with changed tokens. -/
theorem execAll_mapTokensAll
    (hKinds : ∀ t, (f t).kind = t.kind)
    (allowance : Nat)
    {body : List Stmt}
    (hNames :
      ∀ t ∈ nameTokensAll body,
        (f t).lexeme = t.lexeme) :
    (execAll allowance (mapTokensAll f body) :
        Execution W Unit) =
      adaptExcept (Stop.relabel f)
        (execAll allowance body) := by
  apply execAll_mapTokensAll_of_forall
  intro s hMem
  apply exec_mapTokens hKinds
  intro t hToken
  exact hNames t (mem_nameTokensAll.mpr ⟨s, hMem, hToken⟩)

end Stmt

end OcScript
