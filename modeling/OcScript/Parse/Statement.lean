import OcScript.Parse.Expression
import OcScript.Stmt

/-
  This file reads statements from tokens and recovers from
  failures.

  A declaration that cannot be read is reported and skipped:
  reading goes on after the next semicolon or before the
  next keyword that starts a statement.  A declaration read
  before the end takes at least one token, read or skipped,
  so the recursion ends by the number of tokens.

  Key definitions include:
    * `OcScript.Parse.resume`
    * `OcScript.Recovered`
    * `OcScript.Parse.recover`
    * `OcScript.Parse.declaration`
    * `OcScript.Parse.statement`
    * `OcScript.Parse.items`
-/

------------------------------------------------------------
-- Recovery
------------------------------------------------------------

namespace OcScript

/-
  What reading gives once failures have been reported and
  skipped: a value, the reports, and the tokens left.
-/
structure Recovered (α : Type) where
  value : α
  reports : List ParseError
  rest : List Token
deriving Repr

namespace Parse

/- The keywords before which reading can go on. -/
def startsStatement
    (t : Token) :
    Bool :=
  match t.kind with
  | .keyword .classWord
  | .keyword .functionWord
  | .keyword .varWord
  | .keyword .forWord
  | .keyword .ifWord
  | .keyword .whileWord
  | .keyword .printWord
  | .keyword .returnWord => true
  | _ => false

/-
  Skip tokens until one that follows a semicolon or starts a
  statement, where `previous` is the token skipped last.
-/
def skipPast
    (previous : Token) :
    List Token → List Token
| [] => []
| t :: rest =>
    if previous.isSymbol .semicolon ∨ startsStatement t then
      t :: rest
    else
      skipPast t rest

/-
  The tokens at which reading goes on after a failure at the
  first of the given tokens, which is always skipped.
-/
def resume : List Token → List Token
| [] => []
| t :: rest => skipPast t rest

/- Skipping leaves no more tokens than there were. -/
theorem length_skipPast_le
    (previous : Token)
    (tokens : List Token) :
    (skipPast previous tokens).length ≤ tokens.length := by
  induction tokens generalizing previous with
  | nil =>
      exact Nat.le_refl _
  | cons t rest ih =>
      unfold skipPast
      split
      · exact Nat.le_refl _
      · exact Nat.le_succ_of_le (ih t)

/- Going on after a failure skips a token, if there is one. -/
theorem length_resume_le
    (tokens : List Token) :
    (resume tokens).length ≤ tokens.length - 1 := by
  cases tokens with
  | nil =>
      exact Nat.le_refl _
  | cons t rest =>
      exact length_skipPast_le t rest

/-
  Report a failure at the token before which it arose, and
  put a skipped statement in the place of the one that was
  not read.
-/
def recover
    {n : Nat}
    (eof : Token)
    (r : BoundedReading Stmt n) :
    { d : Recovered Stmt // d.rest.length ≤ n - 1 } :=
  match r with
  | ⟨.done value reports rest, hRest⟩ =>
      ⟨⟨value, reports, rest⟩, Nat.le_sub_one_of_lt hRest⟩
  | ⟨.failed cause reports rest, hRest⟩ =>
      ⟨⟨.skipped, reports ++ [⟨rest.headD eof, cause⟩],
          resume rest⟩,
        Nat.le_trans (length_resume_le rest)
          (Nat.sub_le_sub_right hRest 1)⟩

end Parse

end OcScript

------------------------------------------------------------
-- Simple Statements
------------------------------------------------------------

namespace OcScript

namespace Parse

open BoundedReading (expect)

/- Read an expression and the semicolon after it. -/
def closedExpression
    (cause : ParseCause)
    (tokens : List Token) :
    BoundedReading Expr tokens.length :=
  (assignment tokens).followedBy fun value rest =>
    (expect (.symbol .semicolon) cause rest).map
      fun _ => value

/-
  Read the end of a variable declaration: a semicolon,
  before which an initial value may stand.
-/
def initializer
    (tokens : List Token) :
    BoundedReading (Option Expr) tokens.length :=
  let cause := ParseCause.semicolonAfterDeclaration
  match tokens with
  | [] =>
      (expect (.symbol .semicolon) cause []).map
        fun _ => none
  | t :: rest =>
      if t.isSymbol .equal then
        ((closedExpression cause rest).map some).past t
      else
        (expect (.symbol .semicolon) cause (t :: rest)).map
          fun _ => none

/- Read a variable declaration after its keyword. -/
def variableDeclaration
    (tokens : List Token) :
    BoundedReading Stmt tokens.length :=
  (expect .identifier .variableName tokens).followedBy
    fun name rest =>
      (initializer rest).map (.declare name)

/-
  Read a condition in parentheses after the keyword
  `keyword`.
-/
def condition
    (keyword : Token)
    (unclosed : ParseCause)
    (tokens : List Token) :
    BoundedReading Expr tokens.length :=
  (expect (.symbol .leftParen)
    (.openingParenAfter keyword.lexeme) tokens).followedBy
      fun _ rest =>
        (assignment rest).followedBy fun value rest =>
          (expect (.symbol .rightParen) unclosed rest).map
            fun _ => value

end Parse

end OcScript

------------------------------------------------------------
-- Reading Statements
------------------------------------------------------------

namespace OcScript

namespace Parse

open BoundedReading (done expect)

mutual

/-
  Read a statement.  An else branch belongs to the nearest
  condition.
-/
def statement
    (eof : Token)
    (tokens : List Token) :
    BoundedReading Stmt tokens.length :=
  match tokens with
  | [] =>
      (closedExpression .semicolonAfterExpression []).map
        .expression
  | t :: rest =>
      match t.kind with
      | .keyword .ifWord =>
          ((condition t (.closingParenAfterIf t.lexeme)
            rest).andThen fun test rest hRest =>
              (ifBranches eof test rest).weaken
                (Nat.le_of_lt hRest)).past t
      | .keyword .printWord =>
          ((closedExpression .semicolonAfterValue rest).map
            (.print t)).past t
      | .keyword .whileWord =>
          ((condition t .closingParenAfterWhile
            rest).andThen fun test rest hRest =>
              ((statement eof rest).map
                (.whileDo test)).weaken
                  (Nat.le_of_lt hRest)).past t
      | .symbol .leftBrace =>
          let ⟨body, hBody⟩ := items eof rest
          (((expect (.symbol .rightBrace) .closingBrace
            body.rest).map fun _ =>
              .block body.value).after body.reports).weaken
            (Nat.le_succ_of_le hBody)
      | _ =>
          (closedExpression .semicolonAfterExpression
            (t :: rest)).map .expression
termination_by 3 * tokens.length
decreasing_by
  all_goals
    simp only [List.length_cons] at *
    omega

/- Read the branches of a condition. -/
def ifBranches
    (eof : Token)
    (test : Expr)
    (tokens : List Token) :
    BoundedReading Stmt tokens.length :=
  (statement eof tokens).andThen fun thenBranch rest hRest =>
    match rest, hRest with
    | [], hRest => done (.ifThen test thenBranch) [] hRest
    | t :: rest, hRest =>
        if t.isKeyword .elseWord then
          ((statement eof rest).map
            (.ifElse test thenBranch)).weaken
              (Nat.le_of_lt (Nat.lt_of_succ_lt hRest))
        else
          done (.ifThen test thenBranch) (t :: rest) hRest
termination_by 3 * tokens.length + 1
decreasing_by
  · omega
  · simp only [List.length_cons] at *
    omega

/-
  Read a variable declaration or a statement, recovering
  from a failure.
-/
def declaration
    (eof : Token)
    (tokens : List Token) :
    { d : Recovered Stmt //
      d.rest.length ≤ tokens.length - 1 } :=
  match tokens with
  | [] => recover eof (statement eof [])
  | t :: rest =>
      if t.isKeyword .varWord then
        recover eof
          ((variableDeclaration rest).past t)
      else
        recover eof (statement eof (t :: rest))
termination_by 3 * tokens.length + 1
decreasing_by
  all_goals omega

/- Read declarations up to a closing brace or the end. -/
def items
    (eof : Token)
    (tokens : List Token) :
    { d : Recovered (List Stmt) //
      d.rest.length ≤ tokens.length } :=
  match tokens with
  | [] => ⟨⟨[], [], []⟩, Nat.le_refl _⟩
  | t :: rest =>
      if t.isSymbol .rightBrace then
        ⟨⟨[], [], t :: rest⟩, Nat.le_refl _⟩
      else
        let ⟨first, hFirst⟩ := declaration eof (t :: rest)
        let ⟨others, hOthers⟩ := items eof first.rest
        ⟨⟨first.value :: others.value,
            first.reports ++ others.reports, others.rest⟩,
          Nat.le_trans hOthers
            (Nat.le_trans hFirst (Nat.sub_le _ 1))⟩
termination_by 3 * tokens.length + 2
decreasing_by
  · omega
  · simp only [List.length_cons] at *
    omega

end

end Parse

end OcScript
