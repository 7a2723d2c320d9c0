import OcScript.Expr

/-
  This file defines the levels of binary operators.

  A chain at one level is a sequence of operands joined by
  the operators of that level, read from left to right.
  The first operand is read at the next tighter level.  The
  later operands of a comparison, a sum, or a product are
  read as whole comparisons again, so these operators all
  group to the right.

  Key definitions include:
    * `OcScript.Level`
    * `OcScript.Level.accepts`
    * `OcScript.Level.tighter?`
    * `OcScript.Level.operandLevel`
    * `OcScript.Level.combine`
-/

------------------------------------------------------------
-- Levels
------------------------------------------------------------

namespace OcScript

/- The levels of binary operators, the loosest first. -/
inductive Level where
| disjunction
| conjunction
| equality
| comparison
| sum
| product
deriving DecidableEq, Repr

namespace Level

/- How tightly a level binds, counted from the tightest. -/
def height : Level → Nat
| disjunction => 5
| conjunction => 4
| equality => 3
| comparison => 2
| sum => 1
| product => 0

/- The level at which the first operand is read. -/
def tighter? : Level → Option Level
| disjunction => some conjunction
| conjunction => some equality
| equality => some comparison
| comparison => some sum
| sum => some product
| product => none

/- The level at which the later operands are read. -/
def operandLevel : Level → Level
| disjunction => conjunction
| conjunction => equality
| equality => comparison
| comparison => comparison
| sum => comparison
| product => comparison

/- The operators of each level. -/
def operators : Level → List TokenKind
| disjunction => [.keyword .orWord]
| conjunction => [.keyword .andWord]
| equality => [.symbol .bangEqual, .symbol .equalEqual]
| comparison =>
    [.symbol .greater, .symbol .greaterEqual,
      .symbol .less, .symbol .lessEqual]
| sum => [.symbol .minus, .symbol .plus]
| product => [.symbol .slash, .symbol .star]

/- A token is an operator of a level. -/
def accepts
    (level : Level)
    (t : Token) :
    Bool :=
  t.kind ∈ level.operators

/- Join two operands at a level. -/
def combine
    (level : Level)
    (left : Expr)
    (operator : Token)
    (right : Expr) :
    Expr :=
  match level with
  | disjunction | conjunction =>
      .logical left operator right
  | equality | comparison | sum | product =>
      .binary left operator right

/- A tighter level is lower. -/
theorem height_of_tighter?
    {level next : Level}
    (hNext : level.tighter? = some next) :
    next.height < level.height := by
  cases level <;> cases hNext <;> decide

/- The later operands are below the loosest level. -/
theorem height_operandLevel
    (level : Level) :
    level.operandLevel.height ≤ 4 := by
  cases level <;> decide

end Level

end OcScript
