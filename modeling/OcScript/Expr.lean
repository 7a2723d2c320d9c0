import OcScript.Token

/-
  This file defines expressions and their prefix form.

  Key definitions include:
    * `OcScript.Expr`
    * `OcScript.Expr.dump`
-/

------------------------------------------------------------
-- Expressions
------------------------------------------------------------

namespace OcScript

/-
  An expression.  Operators and names keep their tokens, so
  that errors can point to them.  A logical expression
  looks at its right operand only if the left one does not
  decide it.
-/
inductive Expr where
| literal (value : Value)
| group (inner : Expr)
| unary (operator : Token) (operand : Expr)
| binary (left : Expr) (operator : Token) (right : Expr)
| logical (left : Expr) (operator : Token) (right : Expr)
| var (name : Token)
| assign (name : Token) (value : Expr)
deriving DecidableEq, Repr

namespace Expr

/- The text of a literal in prefix form. -/
def dumpValue : Value → String
| .null => "nil"
| value => value.text

/- The prefix form of an expression. -/
def dump : Expr → String
| .literal value => dumpValue value
| .group inner => "(group " ++ inner.dump ++ ")"
| .unary operator operand =>
    "(" ++ operator.lexeme ++ " " ++ operand.dump ++ ")"
| .binary left operator right =>
    "(" ++ operator.lexeme ++ " " ++ left.dump ++
      " " ++ right.dump ++ ")"
| .logical left operator right =>
    "(" ++ operator.lexeme ++ " " ++ left.dump ++
      " " ++ right.dump ++ ")"
| .var name => name.lexeme
| .assign name value =>
    "(= " ++ name.lexeme ++ " " ++ value.dump ++ ")"

end Expr

end OcScript
