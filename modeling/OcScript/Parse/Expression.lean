import OcScript.Parse.Level
import OcScript.Parse.Reading

/-
  This file reads expressions from tokens.

  Reading an expression always reads at least one token, so
  the recursion ends by the number of tokens and, where none
  has been read yet, by the level.

  Key definitions include:
    * `OcScript.Parse.assignment`
    * `OcScript.Parse.chain`
    * `OcScript.Parse.chainRest`
    * `OcScript.Parse.unary`
    * `OcScript.Parse.primary`
-/

------------------------------------------------------------
-- Parts of Expressions
------------------------------------------------------------

namespace OcScript

namespace Parse

/- The operators that stand before their operand. -/
def isUnaryOperator
    (t : Token) :
    Bool :=
  t.isSymbol .bang ∨ t.isSymbol .minus

/-
  The expression of a single token, if the token is a
  literal or a name.
-/
def atom?
    (t : Token) :
    Option Expr :=
  match t.kind with
  | .keyword .falseWord => some (.literal (.bool false))
  | .keyword .trueWord => some (.literal (.bool true))
  | .keyword .nilWord => some (.literal .null)
  | .number x => some (.literal (.num x))
  | .string s => some (.literal (.str s))
  | .identifier => some (.var t)
  | _ => none

/-
  Assign a value to what stands left of an equals sign.  If
  that is not a name, this is reported at the equals sign,
  and the left side is kept in place of an assignment.
-/
def assignTo
    (target : Expr)
    (equals : Token)
    (value : Expr) :
    Expr × List ParseError :=
  match target with
  | .var name => (.assign name value, [])
  | _ => (target, [⟨equals, .assignmentTarget⟩])

end Parse

end OcScript

------------------------------------------------------------
-- Reading Expressions
------------------------------------------------------------

namespace OcScript

namespace Parse

open BoundedReading (done failed expect)

mutual

/-
  Read an expression.  Assignments group to the right, and
  what stands left of an equals sign is read as a
  disjunction first.
-/
def assignment
    (tokens : List Token) :
    BoundedReading Expr tokens.length :=
  (chain .disjunction tokens).andThen fun left rest hRest =>
    match rest, hRest with
    | [], hRest => done left [] hRest
    | t :: rest, hRest =>
        if t.isSymbol .equal then
          ((assignment rest).andThen fun value rest hRest =>
            let (target, reports) := assignTo left t value
            (done target rest hRest).after reports).weaken
              (Nat.le_of_lt (Nat.lt_of_succ_lt hRest))
        else
          done left (t :: rest) hRest
termination_by 9 * tokens.length + 8
decreasing_by
  · simp only [Level.height]
    omega
  · simp only [List.length_cons] at hRest
    omega

/- Read a chain of operands joined at a level. -/
def chain
    (level : Level)
    (tokens : List Token) :
    BoundedReading Expr tokens.length :=
  let first :=
    match _hNext : level.tighter? with
    | some next => chain next tokens
    | none => unary tokens
  first.andThen fun left rest hRest =>
    (chainRest level left rest).weaken hRest
termination_by 9 * tokens.length + 2 + level.height
decreasing_by
  · have hLower := Level.height_of_tighter? _hNext
    omega
  · omega
  · omega

/-
  Read the rest of a chain whose operands so far are joined
  to `left`.
-/
def chainRest
    (level : Level)
    (left : Expr)
    (tokens : List Token) :
    BoundedReading Expr (tokens.length + 1) :=
  match tokens with
  | [] => done left [] (Nat.lt_succ_self _)
  | t :: rest =>
      if level.accepts t then
        ((chain level.operandLevel rest).andThen
          fun right rest hRest =>
            (chainRest level (level.combine left t right)
              rest).weaken hRest).weaken
          (Nat.le_add_right _ 2)
      else
        done left (t :: rest) (Nat.lt_succ_self _)
termination_by 9 * tokens.length
decreasing_by
  · have hHeight := Level.height_operandLevel level
    simp only [List.length_cons]
    omega
  · simp only [List.length_cons]
    omega

/- Read an operand, with the operators before it. -/
def unary
    (tokens : List Token) :
    BoundedReading Expr tokens.length :=
  match tokens with
  | [] => primary []
  | t :: rest =>
      if isUnaryOperator t then
        ((chain .comparison rest).map (.unary t)).past t
      else
        primary (t :: rest)
termination_by 9 * tokens.length + 1
decreasing_by
  · omega
  · simp only [Level.height, List.length_cons]
    omega
  · omega

/- Read a literal, a name, or a group in parentheses. -/
def primary
    (tokens : List Token) :
    BoundedReading Expr tokens.length :=
  match tokens with
  | [] => failed .expression [] (Nat.le_refl _)
  | t :: rest =>
      match atom? t with
      | some atom => done atom rest (Nat.lt_succ_self _)
      | none =>
          if t.isSymbol .leftParen then
            ((assignment rest).followedBy fun inner rest =>
              (expect (.symbol .rightParen) .closingParen
                rest).map fun _ => .group inner).past t
          else
            failed .expression (t :: rest) (Nat.le_refl _)
termination_by 9 * tokens.length
decreasing_by
  simp only [List.length_cons]
  omega

end

end Parse

end OcScript
