import OcScript.Parse.Program

/-
  This file reads programs with a cursor.

  All tokens stay where they are, and a cursor is the index
  of the one to be read next.  Nothing keeps it from moving
  behind the last token, where there is nothing to look at,
  and nothing but an allowance on nested calls ends the
  recursion.  Where the cursor has been is remembered.

  Key definitions include:
    * `OcScript.Cursor`
    * `OcScript.Halt`
    * `OcScript.Walk`
    * `OcScript.Walk.advance`
    * `OcScript.Walk.accept?`
    * `OcScript.Walk.assignment`
    * `OcScript.Walk.synchronize`
    * `OcScript.Walk.declaration`
    * `OcScript.Walk.program`
-/

------------------------------------------------------------
-- Cursors
------------------------------------------------------------

namespace OcScript

/-
  Some tokens, the index of the one to be read next, the
  largest index that there was, and the errors reported.
-/
structure Cursor where
  tokens : List Token
  place : Nat
  farthest : Nat
  reports : List ParseError
deriving Repr

namespace Cursor

/- A cursor at the first of some tokens. -/
def start
    (tokens : List Token) :
    Cursor :=
  ⟨tokens, 0, 0, []⟩

/- Move a cursor past one token. -/
def forward
    (c : Cursor) :
    Cursor :=
  { c with
    place := c.place + 1
    farthest := max c.farthest (c.place + 1) }

end Cursor

/-
  Why a walk stopped before its end: a token was missed, or
  there was no token at an index, or there were more nested
  calls than allowed.
-/
inductive Halt where
| failure (error : ParseError)
| outOfRange
| outOfAllowance
deriving DecidableEq, Repr

/- A reading that moves a cursor. -/
abbrev Walk (α : Type) :=
  EStateM Halt Cursor α

namespace Walk

------------------------------------------------------------
-- Single Tokens
------------------------------------------------------------

/- The token at an index, where there must be one. -/
def lookAt
    (i : Nat) :
    Walk Token :=
  fun c =>
    match c.tokens[i]? with
    | some t => .ok t c
    | none => .error .outOfRange c

/- The token to be read next. -/
def peek : Walk Token := do
  lookAt (← get).place

/- The token before it, or the first one of all. -/
def previous : Walk Token := do
  lookAt ((← get).place - 1)

/- The token to be read next is an end marker. -/
def atEnd : Walk Bool := do
  return (← peek).isEof

/-
  Move past a token, if it is no end marker, and give the
  token before the cursor.
-/
def advance : Walk Token := do
  if !(← atEnd) then
    modify Cursor.forward
  previous

/- The token to be read next is of some kind. -/
def check
    (kind : TokenKind) :
    Walk Bool := do
  if ← atEnd then
    return false
  return (← peek).kind = kind

/- Move past a token of one of some kinds, if it is next. -/
def accept? : List TokenKind → Walk (Option Token)
| [] => return none
| kind :: kinds => do
    if ← check kind then
      return some (← advance)
    else
      accept? kinds

/- Move past a token of some kind, which must be next. -/
def consume
    (kind : TokenKind)
    (cause : ParseCause) :
    Walk Token := do
  if ← check kind then
    advance
  else
    throw (.failure ⟨← peek, cause⟩)

/- Report errors that do not stop the walk. -/
def report
    (errors : List ParseError) :
    Walk Unit :=
  modify fun c => { c with reports := c.reports ++ errors }

end Walk

end OcScript

------------------------------------------------------------
-- Expressions
------------------------------------------------------------

namespace OcScript

namespace Walk

mutual

/- Read an expression. -/
def assignment : Nat → Walk Expr
| 0 => throw .outOfAllowance
| allowance + 1 => do
    let left ← chain allowance .disjunction
    match ← accept? [.symbol .equal] with
    | none => return left
    | some equals =>
        let value ← assignment allowance
        let (target, errors) :=
          Parse.assignTo left equals value
        report errors
        return target

/- Read a chain of operands joined at a level. -/
def chain : Nat → Level → Walk Expr
| 0, _ => throw .outOfAllowance
| allowance + 1, level => do
    let left ←
      match level.tighter? with
      | some next => chain allowance next
      | none => unary allowance
    chainRest allowance level left

/- Read the rest of a chain that is joined to `left`. -/
def chainRest : Nat → Level → Expr → Walk Expr
| 0, _, _ => throw .outOfAllowance
| allowance + 1, level, left => do
    match ← accept? level.operators with
    | none => return left
    | some operator =>
        let right ← chain allowance level.operandLevel
        chainRest allowance level
          (level.combine left operator right)

/- Read an operand, with the operators before it. -/
def unary : Nat → Walk Expr
| 0 => throw .outOfAllowance
| allowance + 1 => do
    match ← accept? [.symbol .bang, .symbol .minus] with
    | none => primary allowance
    | some operator =>
        return .unary operator (← chain allowance .comparison)

/- Read a literal, a name, or a group in parentheses. -/
def primary : Nat → Walk Expr
| 0 => throw .outOfAllowance
| allowance + 1 => do
    let t ← peek
    match Parse.atom? t with
    | some atom =>
        let _ ← advance
        return atom
    | none =>
        if t.isSymbol .leftParen then
          let _ ← advance
          let inner ← assignment allowance
          let _ ← consume (.symbol .rightParen) .closingParen
          return .group inner
        else
          throw (.failure ⟨t, .expression⟩)

end

/- Read an expression and the semicolon after it. -/
def closedExpression
    (allowance : Nat)
    (cause : ParseCause) :
    Walk Expr := do
  let value ← assignment allowance
  let _ ← consume (.symbol .semicolon) cause
  return value

/- Read a condition in parentheses after its keyword. -/
def condition
    (allowance : Nat)
    (keyword : Token)
    (unclosed : ParseCause) :
    Walk Expr := do
  let _ ←
    consume (.symbol .leftParen)
      (.openingParenAfter keyword.lexeme)
  let value ← assignment allowance
  let _ ← consume (.symbol .rightParen) unclosed
  return value

/- Read a variable declaration after its keyword. -/
def variableDeclaration
    (allowance : Nat) :
    Walk Stmt := do
  let cause := ParseCause.semicolonAfterDeclaration
  let name ← consume .identifier .variableName
  match ← accept? [.symbol .equal] with
  | none =>
      let _ ← consume (.symbol .semicolon) cause
      return .declare name none
  | some _ =>
      let initial ← closedExpression allowance cause
      return .declare name (some initial)

end Walk

end OcScript

------------------------------------------------------------
-- Statements
------------------------------------------------------------

namespace OcScript

namespace Walk

/-
  Skip tokens until one that follows a semicolon or starts a
  statement, or to the end.
-/
def skip : Nat → Walk Unit
| 0 => throw .outOfAllowance
| allowance + 1 => do
    if ← atEnd then
      return
    if (← previous).isSymbol .semicolon then
      return
    if Parse.startsStatement (← peek) then
      return
    let _ ← advance
    skip allowance

/- Skip the token of a failure and what comes after it. -/
def synchronize
    (allowance : Nat) :
    Walk Unit := do
  let _ ← advance
  skip allowance

/-
  Report a failure and go on behind it, with a skipped
  statement in the place of the one that was not read.
-/
def skipStatement
    (allowance : Nat)
    (error : ParseError) :
    Walk Stmt := do
  report [error]
  synchronize allowance
  return .skipped

/- Recover from a failure of a walk, but from no other halt. -/
def recovering
    (allowance : Nat)
    (w : Walk Stmt) :
    Walk Stmt :=
  fun c =>
    match w c with
    | .error (.failure error) c =>
        skipStatement allowance error c
    | result => result

mutual

/- Read a statement. -/
def statement : Nat → Walk Stmt
| 0 => throw .outOfAllowance
| allowance + 1 => do
    match ← accept? [.keyword .ifWord] with
    | some keyword =>
        let test ←
          condition allowance keyword
            (.closingParenAfterIf keyword.lexeme)
        ifBranches allowance test
    | none =>
    match ← accept? [.keyword .printWord] with
    | some keyword =>
        let value ←
          closedExpression allowance .semicolonAfterValue
        return .print keyword value
    | none =>
    match ← accept? [.keyword .whileWord] with
    | some keyword =>
        let test ←
          condition allowance keyword .closingParenAfterWhile
        let body ← statement allowance
        return .whileDo test body
    | none =>
    match ← accept? [.symbol .leftBrace] with
    | some _ =>
        let body ← items allowance
        let _ ← consume (.symbol .rightBrace) .closingBrace
        return .block body
    | none =>
        let value ←
          closedExpression allowance .semicolonAfterExpression
        return .expression value

/- Read the branches of a condition. -/
def ifBranches : Nat → Expr → Walk Stmt
| 0, _ => throw .outOfAllowance
| allowance + 1, test => do
    let thenBranch ← statement allowance
    match ← accept? [.keyword .elseWord] with
    | none => return .ifThen test thenBranch
    | some _ =>
        let elseBranch ← statement allowance
        return .ifElse test thenBranch elseBranch

/- Read a declaration or a statement, and recover. -/
def declaration : Nat → Walk Stmt
| 0 => throw .outOfAllowance
| allowance + 1 =>
    recovering allowance do
      match ← accept? [.keyword .varWord] with
      | some _ => variableDeclaration allowance
      | none => statement allowance

/- Read declarations up to a closing brace or the end. -/
def items : Nat → Walk (List Stmt)
| 0 => throw .outOfAllowance
| allowance + 1 => do
    if ← check (.symbol .rightBrace) then
      return []
    if ← atEnd then
      return []
    let first ← declaration allowance
    let others ← items allowance
    return first :: others

end

/- Read declarations up to the end. -/
def program : Nat → Walk Program
| 0 => throw .outOfAllowance
| allowance + 1 => do
    if ← atEnd then
      return []
    let first ← declaration allowance
    let others ← program allowance
    return first :: others

end Walk

end OcScript
