import OcScript.Parse.Program

/-
  This file states what the parser reads without the bounds
  that make its recursion end.

  Every reading function gets one equation between plain
  readings, put together by `Reading.andThen` and
  `Reading.map`.  A reading that is done is taken apart
  again by `Reading.andThen_eq_done_iff`.

  Key definitions include:
    * `OcScript.Reading.map`
    * `OcScript.Reading.recovered`
    * `OcScript.Parse.assignmentRest`
    * `OcScript.Parse.firstOperand`
    * `OcScript.Parse.branchesRest`
    * `OcScript.Parse.attempt`

  Key theorems include:
    * `OcScript.Reading.andThen_eq_done_iff`
    * `OcScript.Parse.val_assignment`
    * `OcScript.Parse.val_chain`
    * `OcScript.Parse.chain_induction`
    * `OcScript.Parse.val_statement_block`
    * `OcScript.Parse.val_items_cons`
-/

------------------------------------------------------------
-- Plain Readings
------------------------------------------------------------

namespace OcScript

namespace Token

theorem isSymbol_iff
    {t : Token}
    {s : Symbol} :
    t.isSymbol s = true ↔ t.kind = .symbol s :=
  decide_eq_true_iff

theorem isKeyword_iff
    {t : Token}
    {k : Keyword} :
    t.isKeyword k = true ↔ t.kind = .keyword k :=
  decide_eq_true_iff

end Token

namespace Reading

variable {α β γ : Type}

/- Change the value that is read. -/
def map
    (f : α → β)
    (r : Reading α) :
    Reading β :=
  r.andThen fun value rest => .done (f value) [] rest

@[simp] theorem after_nil
    (r : Reading α) :
    r.after [] = r := by
  cases r <;> rfl

theorem after_after
    (r : Reading α)
    (earlier later : List ParseError) :
    (r.after later).after earlier =
      r.after (earlier ++ later) := by
  cases r <;> simp [after]

@[simp] theorem andThen_done
    (value : α)
    (reports : List ParseError)
    (rest : List Token)
    (next : α → List Token → Reading β) :
    (Reading.done value reports rest).andThen next =
      (next value rest).after reports :=
  rfl

@[simp] theorem andThen_failed
    (cause : ParseCause)
    (reports : List ParseError)
    (rest : List Token)
    (next : α → List Token → Reading β) :
    (Reading.failed cause reports rest).andThen next =
      .failed cause reports rest :=
  rfl

@[simp] theorem map_done
    (f : α → β)
    (value : α)
    (reports : List ParseError)
    (rest : List Token) :
    (Reading.done value reports rest).map f =
      .done (f value) reports rest := by
  simp [map, after]

@[simp] theorem map_failed
    (f : α → β)
    (cause : ParseCause)
    (reports : List ParseError)
    (rest : List Token) :
    (Reading.failed cause reports rest).map f =
      .failed cause reports rest :=
  rfl

/- Earlier reports stay first when a reading goes on. -/
theorem andThen_after
    (r : Reading α)
    (earlier : List ParseError)
    (next : α → List Token → Reading β) :
    (r.after earlier).andThen next =
      (r.andThen next).after earlier := by
  cases r with
  | done value reports rest =>
      exact (after_after _ _ _).symm
  | failed cause reports rest =>
      rfl

/- It does not matter how three readings are grouped. -/
theorem andThen_assoc
    (r : Reading α)
    (next : α → List Token → Reading β)
    (last : β → List Token → Reading γ) :
    (r.andThen next).andThen last =
      r.andThen fun value rest =>
        (next value rest).andThen last := by
  cases r with
  | done value reports rest =>
      exact andThen_after _ _ _
  | failed cause reports rest =>
      rfl

/-
  Two readings in turn are done just if both are, and then
  the reports of both are made.
-/
theorem andThen_eq_done_iff
    {r : Reading α}
    {next : α → List Token → Reading β}
    {value : β}
    {reports : List ParseError}
    {rest : List Token} :
    r.andThen next = .done value reports rest ↔
      ∃ first earlier middle later,
        r = .done first earlier middle ∧
          next first middle = .done value later rest ∧
          reports = earlier ++ later := by
  constructor
  · intro hDone
    cases r with
    | failed cause earlier middle =>
        cases hDone
    | done first earlier middle =>
        cases hNext : next first middle with
        | failed cause later left =>
            simp [hNext, after] at hDone
        | done last later left =>
            simp only [andThen_done, hNext, after,
              done.injEq] at hDone
            rcases hDone with ⟨rfl, rfl, rfl⟩
            exact
              ⟨first, earlier, middle, later, rfl, hNext,
                rfl⟩
  · rintro ⟨first, earlier, middle, later, rfl, hNext, rfl⟩
    simp [hNext, after]

/- A changed value was read before it was changed. -/
theorem map_eq_done_iff
    {f : α → β}
    {r : Reading α}
    {value : β}
    {reports : List ParseError}
    {rest : List Token} :
    r.map f = .done value reports rest ↔
      ∃ first, r = .done first reports rest ∧
        f first = value := by
  cases r with
  | done first earlier middle =>
      simp only [map_done, done.injEq]
      constructor
      · rintro ⟨rfl, rfl, rfl⟩
        exact ⟨first, ⟨rfl, rfl, rfl⟩, rfl⟩
      · rintro ⟨_, ⟨rfl, rfl, rfl⟩, rfl⟩
        exact ⟨rfl, rfl, rfl⟩
  | failed cause earlier middle =>
      simp

/- Two readings in turn report nothing if neither does. -/
theorem andThen_eq_clean_iff
    {r : Reading α}
    {next : α → List Token → Reading β}
    {value : β}
    {rest : List Token} :
    r.andThen next = .done value [] rest ↔
      ∃ first middle,
        r = .done first [] middle ∧
          next first middle = .done value [] rest := by
  rw [andThen_eq_done_iff]
  constructor
  · rintro ⟨first, earlier, middle, later, hFirst, hNext,
      hReports⟩
    rcases List.append_eq_nil_iff.mp hReports.symm with
      ⟨rfl, rfl⟩
    exact ⟨first, middle, hFirst, hNext⟩
  · rintro ⟨first, middle, hFirst, hNext⟩
    exact ⟨first, [], middle, [], hFirst, hNext, rfl⟩

theorem after_eq_clean_iff
    {r : Reading α}
    {earlier : List ParseError}
    {value : α}
    {rest : List Token} :
    r.after earlier = .done value [] rest ↔
      earlier = [] ∧ r = .done value [] rest := by
  cases r <;> simp [after, and_assoc, and_left_comm]

/-
  What is kept of a reading once a failure is reported at
  the token before which it arose, and skipped.
-/
def recovered
    (eof : Token) :
    Reading Stmt → Recovered Stmt
| .done value reports rest => ⟨value, reports, rest⟩
| .failed cause reports rest =>
    ⟨.skipped, reports ++ [⟨rest.headD eof, cause⟩],
      Parse.resume rest⟩

/- Nothing is reported only if nothing was skipped. -/
theorem recovered_clean
    {eof : Token}
    {r : Reading Stmt}
    (hClean : (r.recovered eof).reports = []) :
    r = .done (r.recovered eof).value []
      (r.recovered eof).rest := by
  cases r with
  | done value reports rest =>
      simp only [recovered] at hClean ⊢
      rw [hClean]
  | failed cause reports rest =>
      simp [recovered] at hClean

end Reading

end OcScript

------------------------------------------------------------
-- Bounds Forgotten
------------------------------------------------------------

namespace OcScript

namespace BoundedReading

variable {α β : Type} {n : Nat}

@[simp] theorem val_done
    (value : α)
    (rest : List Token)
    (hRest : rest.length < n) :
    (done value rest hRest).val = .done value [] rest :=
  rfl

@[simp] theorem val_failed
    (cause : ParseCause)
    (rest : List Token)
    (hRest : rest.length ≤ n) :
    (failed cause rest hRest : BoundedReading α n).val =
      .failed cause [] rest :=
  rfl

@[simp] theorem val_past
    (t : Token)
    {rest : List Token}
    (r : BoundedReading α rest.length) :
    (r.past t).val = r.val :=
  rfl

@[simp] theorem val_map
    (f : α → β)
    (r : BoundedReading α n) :
    (r.map f).val = r.val.map f :=
  val_andThen r _ _ fun _ _ _ => rfl

@[simp] theorem val_followedBy
    (first : BoundedReading α n)
    (next :
      α →
      (rest : List Token) →
      BoundedReading β rest.length) :
    (first.followedBy next).val =
      first.val.andThen fun value rest =>
        (next value rest).val :=
  val_andThen first _ _ fun _ _ _ => rfl

/- A reading that is done leaves fewer tokens. -/
theorem length_rest_lt
    {r : BoundedReading α n}
    {value : α}
    {reports : List ParseError}
    {rest : List Token}
    (hDone : r.val = .done value reports rest) :
    rest.length < n := by
  have hWithin := r.property
  rw [hDone] at hWithin
  exact hWithin

/- The expected token is read. -/
theorem val_expect_of_kind
    {kind : TokenKind}
    {t : Token}
    (hKind : t.kind = kind)
    (cause : ParseCause)
    (rest : List Token) :
    (expect kind cause (t :: rest)).val =
      .done t [] rest := by
  simp [expect, hKind]

/- Only a token of the expected kind is read. -/
theorem val_expect_eq_done_iff
    {kind : TokenKind}
    {cause : ParseCause}
    {tokens : List Token}
    {t : Token}
    {reports : List ParseError}
    {rest : List Token} :
    (expect kind cause tokens).val =
        .done t reports rest ↔
      tokens = t :: rest ∧ t.kind = kind ∧
        reports = [] := by
  cases tokens with
  | nil =>
      simp [expect]
  | cons first others =>
      by_cases hKind : first.kind = kind
      · rw [val_expect_of_kind hKind]
        simp only [Reading.done.injEq, List.cons.injEq]
        constructor
        · rintro ⟨rfl, rfl, rfl⟩
          exact ⟨⟨rfl, rfl⟩, hKind, rfl⟩
        · rintro ⟨⟨rfl, rfl⟩, _, rfl⟩
          exact ⟨rfl, rfl, rfl⟩
      · simp only [expect, hKind, if_false, val_failed,
          reduceCtorEq, List.cons.injEq, false_iff]
        rintro ⟨⟨rfl, _⟩, hFirst, _⟩
        exact hKind hFirst

/- The expected token is read, or none. -/
theorem val_expect_cases
    (kind : TokenKind)
    (cause : ParseCause)
    (tokens : List Token) :
    (∃ t rest,
      tokens = t :: rest ∧
        (expect kind cause tokens).val = .done t [] rest) ∨
    (expect kind cause tokens).val =
      .failed cause [] tokens := by
  cases tokens with
  | nil =>
      exact Or.inr rfl
  | cons t rest =>
      by_cases hKind : t.kind = kind
      · exact
          Or.inl
            ⟨t, rest, rfl, val_expect_of_kind hKind _ _⟩
      · exact Or.inr (by simp [expect, hKind])

end BoundedReading

end OcScript

------------------------------------------------------------
-- Expressions
------------------------------------------------------------

namespace OcScript

namespace Parse

open BoundedReading (expect)

/-
  What holds of tokens if it holds of all shorter ones holds
  of all tokens.  Readings leave fewer tokens, so this is
  the induction that follows the parser.
-/
theorem length_induction
    {P : List Token → Prop}
    (step :
      ∀ tokens,
        (∀ shorter : List Token,
          shorter.length < tokens.length → P shorter) →
        P tokens)
    (tokens : List Token) :
    P tokens :=
  (measure List.length).wf.induction tokens step

/-
  Go on after what may be the left side of an assignment.
-/
def assignmentRest
    (left : Expr) :
    List Token → Reading Expr
| [] => .done left [] []
| t :: rest =>
    if t.isSymbol .equal then
      (assignment rest).val.andThen fun value rest =>
        .done (assignTo left t value).1
          (assignTo left t value).2 rest
    else
      .done left [] (t :: rest)

theorem val_assignment
    (tokens : List Token) :
    (assignment tokens).val =
      (chain .disjunction tokens).val.andThen
        assignmentRest := by
  rw [assignment]
  apply BoundedReading.val_andThen
  intro left rest hRest
  cases rest with
  | nil =>
      rfl
  | cons t rest =>
      simp only [assignmentRest]
      split
      · rw [BoundedReading.val_weaken]
        apply BoundedReading.val_andThen
        intro value rest hRest
        simp [Reading.after]
      · rfl

/- Read the first operand of a chain. -/
def firstOperand
    (level : Level)
    (tokens : List Token) :
    Reading Expr :=
  match level.tighter? with
  | some next => (chain next tokens).val
  | none => (unary tokens).val

theorem val_chain
    (level : Level)
    (tokens : List Token) :
    (chain level tokens).val =
      (firstOperand level tokens).andThen fun left rest =>
        (chainRest level left rest).val := by
  rw [chain]
  cases level <;>
    exact BoundedReading.val_andThen _ _ _ fun _ _ _ => rfl

/-
  What holds of the reading of operands, and of a chain if
  it holds of its first operand, holds at all levels.
-/
theorem chain_induction
    {P : (List Token → Reading Expr) → Prop}
    (hUnary : P fun tokens => (unary tokens).val)
    (hStep :
      ∀ level,
        P (firstOperand level) →
        P fun tokens => (chain level tokens).val)
    (level : Level) :
    P fun tokens => (chain level tokens).val := by
  have hProduct := hStep .product hUnary
  have hSum := hStep .sum hProduct
  have hComparison := hStep .comparison hSum
  have hEquality := hStep .equality hComparison
  have hConjunction := hStep .conjunction hEquality
  cases level with
  | disjunction => exact hStep .disjunction hConjunction
  | conjunction => exact hConjunction
  | equality => exact hEquality
  | comparison => exact hComparison
  | sum => exact hSum
  | product => exact hProduct

/- A first operand that is read leaves fewer tokens. -/
theorem length_rest_firstOperand_lt
    {level : Level}
    {tokens rest : List Token}
    {left : Expr}
    {reports : List ParseError}
    (hFirst :
      firstOperand level tokens =
        .done left reports rest) :
    rest.length < tokens.length := by
  cases level <;>
    exact BoundedReading.length_rest_lt hFirst

@[simp] theorem val_chainRest_nil
    (level : Level)
    (left : Expr) :
    (chainRest level left []).val = .done left [] [] := by
  rw [chainRest]
  rfl

theorem val_chainRest_cons
    (level : Level)
    (left : Expr)
    (t : Token)
    (rest : List Token) :
    (chainRest level left (t :: rest)).val =
      if level.accepts t then
        (chain level.operandLevel rest).val.andThen
          fun right rest =>
            (chainRest level (level.combine left t right)
              rest).val
      else
        .done left [] (t :: rest) := by
  rw [chainRest]
  split
  · rw [BoundedReading.val_weaken]
    exact BoundedReading.val_andThen _ _ _ fun _ _ _ => rfl
  · rfl

theorem val_unary_nil :
    (unary []).val = .failed .expression [] [] := by
  rw [unary, primary]
  rfl

theorem val_unary_cons
    (t : Token)
    (rest : List Token) :
    (unary (t :: rest)).val =
      if isUnaryOperator t then
        (chain .comparison rest).val.map (.unary t)
      else
        (primary (t :: rest)).val := by
  rw [unary]
  split <;> simp

theorem val_primary_nil :
    (primary []).val = .failed .expression [] [] := by
  rw [primary]
  rfl

theorem val_primary_atom
    {t : Token}
    {atom : Expr}
    (hAtom : atom? t = some atom)
    (rest : List Token) :
    (primary (t :: rest)).val = .done atom [] rest := by
  rw [primary]
  split
  · simp_all
  · simp_all

theorem val_primary_of_not_atom
    {t : Token}
    (hAtom : atom? t = none)
    (rest : List Token) :
    (primary (t :: rest)).val =
      if t.isSymbol .leftParen then
        (assignment rest).val.andThen fun inner rest =>
          (expect (.symbol .rightParen) .closingParen
            rest).val.map fun _ => .group inner
      else
        .failed .expression [] (t :: rest) := by
  rw [primary]
  split
  · simp_all
  · split <;> simp

end Parse

end OcScript

------------------------------------------------------------
-- Statements
------------------------------------------------------------

namespace OcScript

namespace Parse

open BoundedReading (expect)

theorem val_closedExpression
    (cause : ParseCause)
    (tokens : List Token) :
    (closedExpression cause tokens).val =
      (assignment tokens).val.andThen fun value rest =>
        (expect (.symbol .semicolon) cause rest).val.map
          fun _ => value := by
  simp [closedExpression]

theorem val_variableDeclaration
    (tokens : List Token) :
    (variableDeclaration tokens).val =
      (expect .identifier .variableName tokens).val.andThen
        fun name rest =>
          (initializer rest).val.map (.declare name) := by
  simp [variableDeclaration]

theorem val_initializer_cons
    (t : Token)
    (rest : List Token) :
    (initializer (t :: rest)).val =
      if t.isSymbol .equal then
        (closedExpression .semicolonAfterDeclaration
          rest).val.map some
      else
        (expect (.symbol .semicolon)
          .semicolonAfterDeclaration (t :: rest)).val.map
            fun _ => none := by
  unfold initializer
  split <;> simp_all

theorem val_condition
    (keyword : Token)
    (unclosed : ParseCause)
    (tokens : List Token) :
    (condition keyword unclosed tokens).val =
      (expect (.symbol .leftParen)
        (.openingParenAfter keyword.lexeme)
        tokens).val.andThen fun _ rest =>
          (assignment rest).val.andThen fun value rest =>
            (expect (.symbol .rightParen) unclosed
              rest).val.map fun _ => value := by
  simp [condition]

/- Go on after the first branch of a condition. -/
def branchesRest
    (eof : Token)
    (test : Expr)
    (thenBranch : Stmt) :
    List Token → Reading Stmt
| [] => .done (.ifThen test thenBranch) [] []
| t :: rest =>
    if t.isKeyword .elseWord then
      (statement eof rest).val.map (.ifElse test thenBranch)
    else
      .done (.ifThen test thenBranch) [] (t :: rest)

theorem val_ifBranches
    (eof : Token)
    (test : Expr)
    (tokens : List Token) :
    (ifBranches eof test tokens).val =
      (statement eof tokens).val.andThen
        (branchesRest eof test) := by
  rw [ifBranches]
  apply BoundedReading.val_andThen
  intro thenBranch rest hRest
  cases rest with
  | nil =>
      rfl
  | cons t rest =>
      simp only [branchesRest]
      split <;> simp

theorem val_statement_if
    {eof t : Token}
    (hKind : t.kind = .keyword .ifWord)
    (rest : List Token) :
    (statement eof (t :: rest)).val =
      (condition t (.closingParenAfterIf t.lexeme)
        rest).val.andThen fun test rest =>
          (ifBranches eof test rest).val := by
  rw [statement]
  split <;> simp_all
  exact BoundedReading.val_andThen _ _ _ fun _ _ _ => rfl

theorem val_statement_print
    {eof t : Token}
    (hKind : t.kind = .keyword .printWord)
    (rest : List Token) :
    (statement eof (t :: rest)).val =
      (closedExpression .semicolonAfterValue rest).val.map
        (.print t) := by
  rw [statement]
  split <;> simp_all

theorem val_statement_while
    {eof t : Token}
    (hKind : t.kind = .keyword .whileWord)
    (rest : List Token) :
    (statement eof (t :: rest)).val =
      (condition t .closingParenAfterWhile
        rest).val.andThen fun test rest =>
          (statement eof rest).val.map (.whileDo test) := by
  rw [statement]
  split <;> simp_all
  exact BoundedReading.val_andThen _ _ _ fun _ _ _ => by
    simp

theorem val_statement_block
    {eof t : Token}
    (hKind : t.kind = .symbol .leftBrace)
    (rest : List Token) :
    (statement eof (t :: rest)).val =
      ((expect (.symbol .rightBrace) .closingBrace
        (items eof rest).val.rest).val.map fun _ =>
          .block (items eof rest).val.value).after
            (items eof rest).val.reports := by
  rw [statement]
  split <;> simp_all

/- The kinds of tokens that decide what a statement is. -/
def opensStatement
    (t : Token) :
    Bool :=
  t.kind ∈
    [TokenKind.keyword .ifWord, .keyword .printWord,
      .keyword .whileWord, .symbol .leftBrace]

theorem val_statement_expression
    {t : Token}
    (hOpens : opensStatement t = false)
    (eof : Token)
    (rest : List Token) :
    (statement eof (t :: rest)).val =
      (closedExpression .semicolonAfterExpression
        (t :: rest)).val.map .expression := by
  rw [statement]
  split <;> simp_all [opensStatement]

theorem val_declaration_cons
    (eof t : Token)
    (rest : List Token) :
    (declaration eof (t :: rest)).val =
      if t.isKeyword .varWord then
        (variableDeclaration rest).val.recovered eof
      else
        (statement eof (t :: rest)).val.recovered eof := by
  have hRecover :
      ∀ {n : Nat} (r : BoundedReading Stmt n),
        (recover eof r).val = r.val.recovered eof := by
    rintro n ⟨r, hr⟩
    cases r <;> rfl
  rw [declaration]
  split <;> simp [hRecover]

/- Read a declaration, and stop at a failure. -/
def attempt
    (eof : Token) :
    List Token → Reading Stmt
| [] => (statement eof []).val
| t :: rest =>
    if t.isKeyword .varWord then
      (variableDeclaration rest).val
    else
      (statement eof (t :: rest)).val

/- A declaration is an attempt that is recovered from. -/
theorem val_declaration
    (eof t : Token)
    (rest : List Token) :
    (declaration eof (t :: rest)).val =
      (attempt eof (t :: rest)).recovered eof := by
  rw [val_declaration_cons, attempt]
  split <;> rfl

@[simp] theorem val_items_nil
    (eof : Token) :
    (items eof []).val = ⟨[], [], []⟩ := by
  rw [items]

theorem val_items_cons
    (eof t : Token)
    (rest : List Token) :
    (items eof (t :: rest)).val =
      if t.isSymbol .rightBrace then
        ⟨[], [], t :: rest⟩
      else
        let first := (declaration eof (t :: rest)).val
        let others := (items eof first.rest).val
        ⟨first.value :: others.value,
          first.reports ++ others.reports, others.rest⟩ := by
  rw [items]
  split <;> rfl

end Parse

end OcScript

namespace OcScript

namespace Parsed

@[simp] theorem ofBody_nil
    (eof : Token) :
    ofBody eof [] = ⟨[], []⟩ := by
  rw [ofBody]

theorem ofBody_cons
    (eof t : Token)
    (rest : List Token) :
    ofBody eof (t :: rest) =
      let first := (Parse.declaration eof (t :: rest)).val
      let others := ofBody eof first.rest
      ⟨first.value :: others.program,
        first.reports ++ others.errors⟩ := by
  rw [ofBody]

end Parsed

end OcScript
