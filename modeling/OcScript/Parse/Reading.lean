import OcScript.Diagnostic

/-
  This file defines what reading a part of a token list
  gives, and how readings are put together.

  A reading either gives a value or fails; both leave the
  tokens not yet read.  A failure is blamed on the first of
  these, or on the end.  Faults that do not stop the reading
  are reported along the way.  A bounded reading also knows
  that it leaves fewer tokens than it was given, so a
  grammar can be read by recursion on the number of tokens.

  Key definitions include:
    * `OcScript.ParseCause`
    * `OcScript.ParseError`
    * `OcScript.Reading`
    * `OcScript.Reading.Within`
    * `OcScript.BoundedReading`
    * `OcScript.BoundedReading.andThen`
    * `OcScript.BoundedReading.followedBy`
    * `OcScript.BoundedReading.expect`

  Key theorems include:
    * `OcScript.BoundedReading.val_andThen`
-/

------------------------------------------------------------
-- Parse Errors
------------------------------------------------------------

namespace OcScript

/- What can be wrong with the tokens of a source. -/
inductive ParseCause where
| expression
| closingParen
| assignmentTarget
| variableName
| semicolonAfterDeclaration
| semicolonAfterValue
| semicolonAfterExpression
| openingParenAfter (keyword : String)
| closingParenAfterIf (keyword : String)
| closingParenAfterWhile
| closingBrace
deriving DecidableEq, Repr

namespace ParseCause

/- What a parse error says. -/
def message : ParseCause → String
| expression => "Expect expression"
| closingParen => "Expect \")\" after expression."
| assignmentTarget => "Invalid assignment target."
| variableName => "Expect variable name."
| semicolonAfterDeclaration =>
    "Expect ';' after variable declaration."
| semicolonAfterValue => "Expect ';' after value."
| semicolonAfterExpression => "Expect ';' after expression."
| openingParenAfter keyword =>
    "Expect '(' after '" ++ keyword ++ "'."
| closingParenAfterIf keyword =>
    "Expect ')' after '" ++ keyword ++ "' condition."
| closingParenAfterWhile => "Expect ')' after 'condition'."
| closingBrace => "Expect '\x7d' after block."

end ParseCause

/- An error at a token. -/
structure ParseError where
  token : Token
  cause : ParseCause
deriving DecidableEq, Repr

namespace ParseError

/- The report of a parse error. -/
def toDiagnostic
    (e : ParseError) :
    Diagnostic :=
  .parse e.token e.cause.message

end ParseError

end OcScript

------------------------------------------------------------
-- Readings
------------------------------------------------------------

namespace OcScript

/-
  The result of reading tokens: a value or the cause of a
  failure, the errors reported on the way, and the tokens
  left.
-/
inductive Reading (α : Type) where
| done
    (value : α)
    (reports : List ParseError)
    (rest : List Token)
| failed
    (cause : ParseCause)
    (reports : List ParseError)
    (rest : List Token)
deriving Repr

namespace Reading

variable {α β : Type}

/- The tokens a reading leaves. -/
def rest : Reading α → List Token
| .done _ _ rest => rest
| .failed _ _ rest => rest

/- The errors a reading reports. -/
def reports : Reading α → List ParseError
| .done _ reports _ => reports
| .failed _ reports _ => reports

/- Put earlier reports before those of a reading. -/
def after
    (earlier : List ParseError) :
    Reading α → Reading α
| .done value reports rest =>
    .done value (earlier ++ reports) rest
| .failed cause reports rest =>
    .failed cause (earlier ++ reports) rest

/-
  Read one thing and then the next, which is told the value
  of the first and the tokens it left.
-/
def andThen
    (first : Reading α)
    (next : α → List Token → Reading β) :
    Reading β :=
  match first with
  | .done value reports rest =>
      (next value rest).after reports
  | .failed cause reports rest =>
      .failed cause reports rest

/-
  A reading stays within `n` tokens if it leaves fewer than
  `n`, or fails and leaves at most `n`.
-/
def Within
    (n : Nat) :
    Reading α → Prop
| .done _ _ rest => rest.length < n
| .failed _ _ rest => rest.length ≤ n

/- Staying within a number of tokens allows for more. -/
theorem Within.mono
    {m n : Nat}
    {r : Reading α}
    (hWithin : r.Within m)
    (hLe : m ≤ n) :
    r.Within n := by
  cases r with
  | done value reports rest =>
      exact Nat.lt_of_lt_of_le hWithin hLe
  | failed cause reports rest =>
      exact Nat.le_trans hWithin hLe

/- Earlier reports do not change the tokens left. -/
theorem Within.after
    {n : Nat}
    {r : Reading α}
    (hWithin : r.Within n)
    (earlier : List ParseError) :
    (r.after earlier).Within n := by
  cases r <;> exact hWithin

end Reading

end OcScript

------------------------------------------------------------
-- Bounded Readings
------------------------------------------------------------

namespace OcScript

/- A reading that stays within `n` tokens. -/
abbrev BoundedReading
    (α : Type)
    (n : Nat) :=
  { r : Reading α // r.Within n }

namespace BoundedReading

variable {α β : Type} {m n : Nat}

/- A value read with no reports. -/
def done
    (value : α)
    (rest : List Token)
    (hRest : rest.length < n) :
    BoundedReading α n :=
  ⟨.done value [] rest, hRest⟩

/- A failure with no reports. -/
def failed
    (cause : ParseCause)
    (rest : List Token)
    (hRest : rest.length ≤ n) :
    BoundedReading α n :=
  ⟨.failed cause [] rest, hRest⟩

/- Forget how few tokens a reading leaves. -/
def weaken
    (r : BoundedReading α m)
    (hLe : m ≤ n) :
    BoundedReading α n :=
  ⟨r.val, r.property.mono hLe⟩

/- Put earlier reports before those of a reading. -/
def after
    (earlier : List ParseError)
    (r : BoundedReading α n) :
    BoundedReading α n :=
  ⟨r.val.after earlier, r.property.after earlier⟩

/-
  Read one thing and then the next, which is told the value
  of the first and the tokens it left.
-/
def andThen
    (first : BoundedReading α n)
    (next :
      (value : α) →
      (rest : List Token) →
      rest.length < n →
      BoundedReading β n) :
    BoundedReading β n :=
  match first with
  | ⟨.done value reports rest, hRest⟩ =>
      (next value rest hRest).after reports
  | ⟨.failed cause reports rest, hRest⟩ =>
      ⟨.failed cause reports rest, hRest⟩

/-
  Read one thing and then the next from the tokens left,
  which is told the value of the first.
-/
def followedBy
    (first : BoundedReading α n)
    (next :
      α →
      (rest : List Token) →
      BoundedReading β rest.length) :
    BoundedReading β n :=
  first.andThen fun value rest hRest =>
    (next value rest).weaken (Nat.le_of_lt hRest)

/- Read what comes after a first token. -/
def past
    (t : Token)
    {rest : List Token}
    (r : BoundedReading α rest.length) :
    BoundedReading α (t :: rest).length :=
  r.weaken (Nat.le_succ rest.length)

/- Change the value that is read. -/
def map
    (f : α → β)
    (r : BoundedReading α n) :
    BoundedReading β n :=
  r.andThen fun value rest hRest =>
    done (f value) rest hRest

/- Read one token of kind `kind`, or fail before it. -/
def expect
    (kind : TokenKind)
    (cause : ParseCause) :
    (tokens : List Token) →
    BoundedReading Token tokens.length
| [] => failed cause [] (Nat.le_refl _)
| t :: rest =>
    if t.kind = kind then
      done t rest (Nat.lt_succ_self _)
    else
      failed cause (t :: rest) (Nat.le_refl _)

end BoundedReading

end OcScript

------------------------------------------------------------
-- Readings Without Their Bounds
------------------------------------------------------------

namespace OcScript

namespace BoundedReading

variable {α β : Type} {m n : Nat}

/- A bound does not change what is read. -/
@[simp] theorem val_weaken
    (r : BoundedReading α m)
    (hLe : m ≤ n) :
    (r.weaken hLe).val = r.val :=
  rfl

/- Earlier reports come before those of the reading. -/
@[simp] theorem val_after
    (earlier : List ParseError)
    (r : BoundedReading α n) :
    (r.after earlier).val = r.val.after earlier :=
  rfl

/- Readings are put together the same with bounds. -/
theorem val_andThen
    (first : BoundedReading α n)
    (next :
      (value : α) →
      (rest : List Token) →
      rest.length < n →
      BoundedReading β n)
    (plain : α → List Token → Reading β)
    (hPlain :
      ∀ value rest hRest,
        (next value rest hRest).val = plain value rest) :
    (first.andThen next).val =
      first.val.andThen plain := by
  rcases first with ⟨reading, hReading⟩
  cases reading with
  | done value reports rest =>
      exact congrArg (Reading.after reports)
        (hPlain value rest hReading)
  | failed cause reports rest =>
      rfl

end BoundedReading

end OcScript
