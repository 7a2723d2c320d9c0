import OcScript.Eval
import OcScript.Stmt

/-
  This file executes statements and programs.

  A loop may run for ever, so execution is given an
  allowance: no loop may test its condition more often than
  the allowance says.  Running out of the allowance is told
  apart from failing.

  Key definitions include:
    * `OcScript.Machine`
    * `OcScript.Stop`
    * `OcScript.Execution`
    * `OcScript.Stmt.exec`
    * `OcScript.Stmt.execAll`
    * `OcScript.Execution.run`
-/

------------------------------------------------------------
-- Machines
------------------------------------------------------------

namespace OcScript

/- The scopes of a running program and what it prints to. -/
structure Machine (W : Type) where
  scopes : Scopes
  sink : W

namespace Machine

/- A machine that has run nothing yet. -/
def fresh
    {W : Type}
    (sink : W) :
    Machine W :=
  ⟨Scopes.fresh, sink⟩

end Machine

/- Why an execution stopped before its end. -/
inductive Stop where
| failure (error : RuntimeError)
| outOfAllowance
deriving DecidableEq, Repr

/-
  A computation on machines that ends or stops early, and
  leaves the machine as it is then.
-/
abbrev Execution (W α : Type) :=
  EStateM Stop (Machine W) α

namespace Execution

variable {W : Type}

/- Evaluate an expression in the scopes of the machine. -/
def evaluate
    (e : Expr) :
    Execution W Value :=
  fun machine =>
    match e.eval machine.scopes with
    | .ok value scopes =>
        .ok value { machine with scopes := scopes }
    | .error error scopes =>
        .error (.failure error)
          { machine with scopes := scopes }

/- Use the writer; its failures are blamed on a token. -/
def useSink
    (blamed : Token)
    (action : EStateM SinkError W Unit) :
    Execution W Unit :=
  fun machine =>
    match action machine.sink with
    | .ok _ sink => .ok () { machine with sink := sink }
    | .error error sink =>
        .error (.failure ⟨blamed, .sink error⟩)
          { machine with sink := sink }

/- Print a line of text for a print statement. -/
def printLine
    [Writer W]
    (keyword : Token)
    (text : String) :
    Execution W Unit :=
  useSink keyword (Writer.write (text ++ "\n").toUTF8)

/- Declare a name in the innermost scope. -/
def declare
    (name : Token)
    (value : Value) :
    Execution W Unit :=
  modify fun machine =>
    { machine with
      scopes := machine.scopes.declare name.lexeme value }

/-
  Execute in a scope of its own, which is left however the
  execution ends.
-/
def inNewScope
    (action : Execution W Unit) :
    Execution W Unit :=
  fun machine =>
    match action
        { machine with scopes := machine.scopes.enter } with
    | .ok _ machine =>
        .ok () { machine with scopes := machine.scopes.leave }
    | .error stop machine =>
        .error stop
          { machine with scopes := machine.scopes.leave }

/-
  Repeat an execution as long as a condition holds, testing
  the condition at most as often as the allowance says.
-/
def repeatWhile :
    (allowance : Nat) →
    (condition : Execution W Bool) →
    (body : Execution W Unit) →
    Execution W Unit
| 0, _, _ => throw .outOfAllowance
| allowance + 1, condition, body => do
    if ← condition then
      body
      repeatWhile allowance condition body

end Execution

end OcScript

------------------------------------------------------------
-- Statements
------------------------------------------------------------

namespace OcScript

namespace Stmt

open Execution (evaluate)

variable {W : Type}
variable [Writer W]

mutual

/- Execute a statement. -/
def exec
    (allowance : Nat) :
    Stmt → Execution W Unit
| .expression value => do
    let _ ← evaluate value
| .print keyword value => do
    let printed ← evaluate value
    Execution.printLine keyword printed.text
| .declare name none => Execution.declare name .null
| .declare name (some initial) => do
    let value ← evaluate initial
    Execution.declare name value
| .block body =>
    Execution.inNewScope (execAll allowance body)
| .ifThen condition thenBranch => do
    if (← evaluate condition).truthy then
      thenBranch.exec allowance
| .ifElse condition thenBranch elseBranch => do
    if (← evaluate condition).truthy then
      thenBranch.exec allowance
    else
      elseBranch.exec allowance
| .whileDo condition body =>
    Execution.repeatWhile allowance
      (Value.truthy <$> evaluate condition)
      (body.exec allowance)
| .skipped => pure ()

/- Execute statements in order. -/
def execAll
    (allowance : Nat) :
    List Stmt → Execution W Unit
| [] => pure ()
| s :: rest => do
    s.exec allowance
    execAll allowance rest

end

end Stmt

end OcScript

------------------------------------------------------------
-- Programs
------------------------------------------------------------

namespace OcScript

namespace Execution

/-
  Run a program and flush the writer at its end.  There is
  no token to blame a failing flush on but one at no line.
-/
def run
    {W : Type}
    [Writer W]
    (allowance : Nat)
    (program : Program) :
    Execution W Unit := do
  Stmt.execAll allowance program
  useSink (Token.atEnd 0) Writer.flush

end Execution

end OcScript
