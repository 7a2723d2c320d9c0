import OcScript.Expr
import OcScript.Scopes

/-
  This file evaluates expressions.

  Evaluation reads and assigns names in the scopes.  When it
  fails, the assignments made before the failure stay.

  Key definitions include:
    * `OcScript.Operation.unary`
    * `OcScript.Operation.binary`
    * `OcScript.Evaluation`
    * `OcScript.Expr.eval`
-/

------------------------------------------------------------
-- Operations on Values
------------------------------------------------------------

namespace OcScript

namespace Operation

/- Apply an operator that stands before its operand. -/
def unary
    (operator : Token)
    (operand : Value) :
    Except RuntimeError Value :=
  match operator.kind with
  | .symbol .bang => .ok (.bool !operand.truthy)
  | .symbol .minus =>
      match operand with
      | .num x => .ok (.num (-x))
      | _ => .error ⟨operator, .operandNotNumber⟩
  | _ => .error ⟨operator, .unsupportedOperator⟩

/-
  The operators on two numbers, the sum apart.  Division
  follows floating-point rules, so it never fails.
-/
def onNumbers? : TokenKind → Option (Float → Float → Value)
| .symbol .minus => some fun x y => .num (x - y)
| .symbol .star => some fun x y => .num (x * y)
| .symbol .slash => some fun x y => .num (x / y)
| .symbol .greater => some fun x y => .bool (x > y)
| .symbol .greaterEqual => some fun x y => .bool (x ≥ y)
| .symbol .less => some fun x y => .bool (x < y)
| .symbol .lessEqual => some fun x y => .bool (x ≤ y)
| _ => none

/- Add two numbers or join two strings. -/
def add
    (operator : Token)
    (left right : Value) :
    Except RuntimeError Value :=
  match left, right with
  | .num x, .num y => .ok (.num (x + y))
  | .str s, .str t => .ok (.str (s ++ t))
  | _, _ => .error ⟨operator, .operandsNotAddable⟩

/- Apply an operator between two operands. -/
def binary
    (operator : Token)
    (left right : Value) :
    Except RuntimeError Value :=
  match operator.kind with
  | .symbol .plus => add operator left right
  | .symbol .equalEqual => .ok (.bool (left.equals right))
  | .symbol .bangEqual => .ok (.bool !(left.equals right))
  | kind =>
      match onNumbers? kind with
      | none => .error ⟨operator, .unsupportedOperator⟩
      | some apply =>
          match left, right with
          | .num x, .num y => .ok (apply x y)
          | _, _ => .error ⟨operator, .operandsNotNumbers⟩

/-
  Whether the left operand decides a logical expression:
  a truthy one decides a disjunction, a falsy one a
  conjunction.
-/
def decides
    (operator : Token)
    (left : Value) :
    Except RuntimeError Bool :=
  match operator.kind with
  | .keyword .orWord => .ok left.truthy
  | .keyword .andWord => .ok !left.truthy
  | _ => .error ⟨operator, .unsupportedOperator⟩

end Operation

end OcScript

------------------------------------------------------------
-- Evaluation
------------------------------------------------------------

namespace OcScript

/-
  A computation on scopes that gives a value or fails, and
  leaves the scopes as they are then.
-/
abbrev Evaluation (α : Type) :=
  EStateM RuntimeError Scopes α

namespace Evaluation

/- The value of a name. -/
def read
    (name : Token) :
    Evaluation Value :=
  fun scopes =>
    match scopes.read name with
    | .ok value => .ok value scopes
    | .error error => .error error scopes

/- Assign a value to a name. -/
def assign
    (name : Token)
    (value : Value) :
    Evaluation Unit :=
  fun scopes =>
    match scopes.assign name value with
    | .ok assigned => .ok () assigned
    | .error error => .error error scopes

end Evaluation

namespace Expr

/- Evaluate an expression, its operands from the left. -/
def eval : Expr → Evaluation Value
| .literal value => pure value
| .group inner => inner.eval
| .unary operator operand => do
    let value ← operand.eval
    ofExcept (Operation.unary operator value)
| .binary left operator right => do
    let leftValue ← left.eval
    let rightValue ← right.eval
    ofExcept
      (Operation.binary operator leftValue rightValue)
| .logical left operator right => do
    let leftValue ← left.eval
    let decided ←
      ofExcept (Operation.decides operator leftValue)
    if decided then
      pure leftValue
    else
      right.eval
| .var name => Evaluation.read name
| .assign name value => do
    let newValue ← value.eval
    Evaluation.assign name newValue
    pure newValue

end Expr

end OcScript
