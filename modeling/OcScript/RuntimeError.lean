import OcScript.Sink
import OcScript.Token

/-
  This file defines the errors that end a running program.

  Key definitions include:
    * `OcScript.RuntimeCause`
    * `OcScript.RuntimeError`
    * `OcScript.RuntimeError.message`
    * `OcScript.RuntimeError.text`
-/

------------------------------------------------------------
-- Runtime Errors
------------------------------------------------------------

namespace OcScript

/- What can go wrong while a program runs. -/
inductive RuntimeCause where
| operandNotNumber
| operandsNotNumbers
| operandsNotAddable
| undefinedVariable
| unsupportedOperator
| sink (error : SinkError)
deriving DecidableEq, Repr

/- An error and the token at which it arose. -/
structure RuntimeError where
  token : Token
  cause : RuntimeCause
deriving DecidableEq, Repr

namespace RuntimeError

/- What a runtime error says. -/
def message
    (e : RuntimeError) :
    String :=
  match e.cause with
  | .operandNotNumber => "Operand must be a number"
  | .operandsNotNumbers => "Operands must be number"
  | .operandsNotAddable =>
      "Operands must be two numbers or two strings."
  | .undefinedVariable =>
      "Undefined variable '" ++ e.token.lexeme ++ "'."
  | .unsupportedOperator =>
      "Unsupported operator '" ++ e.token.lexeme ++ "'."
  | .sink error => error.message

/- The text of a runtime error, with its line. -/
def text
    (e : RuntimeError) :
    String :=
  e.message ++ " [" ++ toString e.token.line ++ "]"

end RuntimeError

end OcScript
