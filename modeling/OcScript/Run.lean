import OcScript.Exec
import OcScript.Parse.Program

/-
  This file runs sources, one after another, on one machine.

  A source with diagnostics is not executed at all.  The
  global names that a run leaves are there for the next one,
  however the run ended.

  Key definitions include:
    * `OcScript.Outcome`
    * `OcScript.Outcome.exitCode`
    * `OcScript.Run`
    * `OcScript.Run.ofProgram`
    * `OcScript.Run.ofSource`
    * `OcScript.Run.ofSources`
-/

------------------------------------------------------------
-- Outcomes
------------------------------------------------------------

namespace OcScript

/- How the run of a source ended. -/
inductive Outcome where
| ok
| rejected (diagnostics : List Diagnostic)
| failed (error : RuntimeError)
| unfinished
deriving DecidableEq, Repr

namespace Outcome

/- The run reached its end without an error. -/
def isOk : Outcome → Bool
| ok => true
| _ => false

/- The source was turned away before it was executed. -/
def isRejected : Outcome → Bool
| rejected _ => true
| _ => false

/- The exit status that tells an outcome. -/
def exitCode : Outcome → Nat
| ok => 0
| rejected _ => 65
| failed _ => 70
| unfinished => 70

/- What is to be said about an outcome, line by line. -/
def complaints : Outcome → List String
| ok => []
| rejected diagnostics => diagnostics.map Diagnostic.text
| failed error => [error.text]
| unfinished => []

end Outcome

end OcScript

------------------------------------------------------------
-- Runs
------------------------------------------------------------

namespace OcScript

/-
  A run: the program read, how it ended, what it printed,
  and the machine it left.  It prints to a sink, if nothing
  else is said.
-/
structure Run (W : Type := Sink) where
  program : Program
  outcome : Outcome
  output : ByteArray
  machine : Machine W

namespace Run

variable {W : Type}

/- The prefix forms of the statements that were executed. -/
def dump
    (run : Run W) :
    List String :=
  if run.outcome.isRejected then
    []
  else
    run.program.map Stmt.dump

variable [Writer W]

/- The bytes a writer has taken after an earlier state. -/
def writtenSince
    (before after : W) :
    ByteArray :=
  (Writer.written after).extract
    (Writer.written before).size
    (Writer.written after).size

/- Run a program on a machine. -/
def ofProgram
    (allowance : Nat)
    (program : Program)
    (machine : Machine W) :
    Run W :=
  let finish
      (outcome : Outcome)
      (after : Machine W) :
      Run W :=
    ⟨program, outcome, writtenSince machine.sink after.sink,
      after⟩
  match Execution.run allowance program machine with
  | .ok _ after => finish .ok after
  | .error (.failure error) after =>
      finish (.failed error) after
  | .error .outOfAllowance after => finish .unfinished after

/- Run a source on a machine, unless it has diagnostics. -/
def ofSource
    (table : KeywordTable)
    (allowance : Nat)
    (source : String)
    (machine : Machine W) :
    Run W :=
  let checked := check table source
  if checked.diagnostics.isEmpty then
    ofProgram allowance checked.program machine
  else
    ⟨checked.program, .rejected checked.diagnostics, .empty,
      machine⟩

/-
  Run one thing after another, each on the machine that the
  one before it left.
-/
def inTurn
    {α : Type}
    (run : α → Machine W → Run W) :
    List α → Machine W → List (Run W)
| [], _ => []
| first :: rest, machine =>
    let done := run first machine
    done :: inTurn run rest done.machine

/- Run sources one after another. -/
def ofSources
    (table : KeywordTable)
    (allowance : Nat)
    (sources : List String)
    (machine : Machine W) :
    List (Run W) :=
  inTurn (ofSource table allowance) sources machine

/- Run programs one after another. -/
def ofPrograms
    (allowance : Nat)
    (programs : List Program)
    (machine : Machine W) :
    List (Run W) :=
  inTurn (ofProgram allowance) programs machine

end Run

end OcScript
