import OcScript.Proofs.Parse.Completeness
import OcScript.Proofs.Parse.Recovery

/-
  This file proves what a reading gives when more tokens are
  put behind those it is given.

  If the first of them is a keyword that only starts a new
  statement, no expression goes on with it.  So the reading
  stays as it is, but for the tokens it leaves: what stopped
  at the end stops at the keyword instead.

  Key definitions include:
    * `OcScript.Reading.extend`
    * `OcScript.Parse.OpensAnew`
    * `OcScript.Parse.isPlain`

  Key theorems include:
    * `OcScript.Reading.andThen_extend`
    * `OcScript.Parse.expression_append`
    * `OcScript.Parse.attempt_of_isPlain`
    * `OcScript.Parse.attempt_append`
    * `OcScript.Parse.declaration_append_cases`
-/

------------------------------------------------------------
-- Readings With More Tokens Left
------------------------------------------------------------

namespace OcScript

namespace Reading

variable {α β : Type}

/- Put more tokens behind those that a reading leaves. -/
def extend
    (back : List Token) :
    Reading α → Reading α
| .done value reports rest =>
    .done value reports (rest ++ back)
| .failed cause reports rest =>
    .failed cause reports (rest ++ back)

theorem after_extend
    (r : Reading α)
    (earlier : List ParseError)
    (back : List Token) :
    (r.extend back).after earlier =
      (r.after earlier).extend back := by
  cases r <;> rfl

/-
  Two readings in turn leave more tokens if both do, the
  second behind any tokens the first can leave.
-/
theorem andThen_extend
    {r : Reading α}
    {back : List Token}
    {next next' : α → List Token → Reading β}
    (hNext :
      ∀ value reports rest,
        r = .done value reports rest →
        next' value (rest ++ back) =
          (next value rest).extend back) :
    (r.extend back).andThen next' =
      (r.andThen next).extend back := by
  cases r with
  | done value reports rest =>
      have hLonger := hNext value reports rest rfl
      calc
        (next' value (rest ++ back)).after reports
        _ = ((next value rest).extend back).after reports := by
            rw [hLonger]
        _ = ((next value rest).after reports).extend back :=
            after_extend _ _ _
  | failed cause reports rest =>
      rfl

@[simp] theorem map_extend
    (r : Reading α)
    (f : α → β)
    (back : List Token) :
    (r.extend back).map f = (r.map f).extend back :=
  andThen_extend fun _ _ _ _ => rfl

end Reading

end OcScript

------------------------------------------------------------
-- Keywords That Open a Statement Anew
------------------------------------------------------------

namespace OcScript

namespace Parse

open BoundedReading (expect)

/- The keywords that start a statement, and nothing else. -/
def newStatementKinds : List TokenKind :=
  [.keyword .varWord, .keyword .ifWord, .keyword .whileWord,
    .keyword .printWord]

/- The first token is a keyword that starts a statement. -/
def OpensAnew
    (tokens : List Token) : Prop :=
  ∃ t ∈ tokens.head?, t.kind ∈ newStatementKinds

theorem OpensAnew.exists_cons
    {tokens : List Token}
    (hOpens : OpensAnew tokens) :
    ∃ t rest,
      tokens = t :: rest ∧ t.kind ∈ newStatementKinds := by
  rcases hOpens with ⟨t, hHead, hKind⟩
  rcases List.head?_eq_some_iff.mp hHead with ⟨rest, rfl⟩
  exact ⟨t, rest, rfl, hKind⟩

section NewStatement

variable {t : Token}
variable (hKind : t.kind ∈ newStatementKinds)

include hKind

theorem newStatement_cases :
    t.kind = .keyword .varWord ∨
      t.kind = .keyword .ifWord ∨
      t.kind = .keyword .whileWord ∨
      t.kind = .keyword .printWord := by
  simpa [newStatementKinds] using hKind

theorem startsExpression_of_newStatement :
    startsExpression t = false := by
  apply startsExpression_eq_false
  rcases newStatement_cases hKind with
    hKind | hKind | hKind | hKind <;>
    simp [opensStatement, hKind]

theorem accepts_of_newStatement
    (level : Level) :
    level.accepts t = false := by
  rcases newStatement_cases hKind with
    hKind | hKind | hKind | hKind <;>
    cases level <;>
    simp [Level.accepts, Level.operators, hKind]

theorem isSymbol_of_newStatement
    (s : Symbol) :
    t.isSymbol s = false := by
  rcases newStatement_cases hKind with
    hKind | hKind | hKind | hKind <;>
    simp [Token.isSymbol, hKind]

theorem startsStatement_of_newStatement :
    startsStatement t = true := by
  rcases newStatement_cases hKind with
    hKind | hKind | hKind | hKind <;>
    simp [startsStatement, hKind]

/- The primary expression is missed before the keyword. -/
theorem val_unary_of_newStatement
    (rest : List Token) :
    (unary (t :: rest)).val =
      .failed .expression [] (t :: rest) := by
  have hStarts := startsExpression_of_newStatement hKind
  simp only [startsExpression, Bool.or_eq_false_iff,
    Option.isSome_eq_false_iff,
    Option.isNone_iff_eq_none] at hStarts
  rcases hStarts with ⟨⟨hUnary, hAtom⟩, hParen⟩
  rw [val_unary_cons, hUnary, if_neg Bool.false_ne_true,
    val_primary_of_not_atom hAtom, hParen,
    if_neg Bool.false_ne_true]

end NewStatement

end Parse

end OcScript

------------------------------------------------------------
-- Expressions
------------------------------------------------------------

namespace OcScript

namespace Parse

open BoundedReading (expect)

variable {back : List Token}

/- A token that is missed at the end is missed before. -/
theorem expect_append
    {kind : TokenKind}
    (hBack : ∀ t ∈ back.head?, t.kind ≠ kind)
    (cause : ParseCause)
    (tokens : List Token) :
    (expect kind cause (tokens ++ back)).val =
      (expect kind cause tokens).val.extend back := by
  cases tokens with
  | nil =>
      cases back with
      | nil =>
          rfl
      | cons t rest =>
          have hKind : t.kind ≠ kind := hBack t rfl
          simp [expect, hKind, Reading.extend]
  | cons t rest =>
      by_cases hKind : t.kind = kind <;>
        simp [expect, hKind, Reading.extend]

variable (hBack : OpensAnew back)

include hBack

theorem expect_symbol_append
    (s : Symbol)
    (cause : ParseCause)
    (tokens : List Token) :
    (expect (.symbol s) cause (tokens ++ back)).val =
      (expect (.symbol s) cause tokens).val.extend back := by
  apply expect_append
  rcases hBack with ⟨t, hHead, hKind⟩
  intro u hMem
  cases Option.mem_unique hHead hMem
  simpa [Token.isSymbol] using
    isSymbol_of_newStatement hKind s

section Shorter

variable {tokens : List Token}
variable
  (hShorter :
    ∀ shorter : List Token,
      shorter.length < tokens.length →
      (∀ level,
        (chain level (shorter ++ back)).val =
          (chain level shorter).val.extend back) ∧
      (assignment (shorter ++ back)).val =
        (assignment shorter).val.extend back)

include hShorter

theorem primary_append_cons
    {t : Token}
    {rest : List Token}
    (hTokens : tokens = t :: rest) :
    (primary (t :: (rest ++ back))).val =
      (primary (t :: rest)).val.extend back := by
  subst hTokens
  cases hAtom : atom? t with
  | some atom =>
      rw [val_primary_atom hAtom, val_primary_atom hAtom]
      rfl
  | none =>
      rw [val_primary_of_not_atom hAtom,
        val_primary_of_not_atom hAtom]
      split
      · rw [(hShorter rest (Nat.lt_succ_self _)).2]
        apply Reading.andThen_extend
        intro inner reports after _
        rw [expect_symbol_append hBack, Reading.map_extend]
      · rfl

theorem unary_append :
    (unary (tokens ++ back)).val =
      (unary tokens).val.extend back := by
  cases tokens with
  | nil =>
      rcases hBack.exists_cons with ⟨t, rest, rfl, hKind⟩
      rw [List.nil_append, val_unary_of_newStatement hKind,
        val_unary_nil]
      rfl
  | cons t rest =>
      rw [List.cons_append, val_unary_cons, val_unary_cons]
      split
      · rw [(hShorter rest (Nat.lt_succ_self _)).1,
          Reading.map_extend]
      · exact primary_append_cons hBack hShorter rfl

theorem chainRest_append
    (level : Level)
    (left : Expr) :
    (chainRest level left (tokens ++ back)).val =
      (chainRest level left tokens).val.extend back := by
  induction tokens using length_induction
      generalizing left with
  | step tokens ih =>
      cases tokens with
      | nil =>
          rcases hBack.exists_cons with ⟨t, rest, rfl, hKind⟩
          rw [List.nil_append, val_chainRest_cons,
            accepts_of_newStatement hKind,
            if_neg Bool.false_ne_true, val_chainRest_nil]
          rfl
      | cons t rest =>
          rw [List.cons_append, val_chainRest_cons,
            val_chainRest_cons]
          split
          · rw [(hShorter rest (Nat.lt_succ_self _)).1]
            apply Reading.andThen_extend
            intro right reports after hDone
            have hLength :
                after.length < (t :: rest).length :=
              Nat.lt_succ_of_lt
                (BoundedReading.length_rest_lt hDone)
            apply ih after hLength
            intro shorter hLess
            exact
              hShorter shorter (Nat.lt_trans hLess hLength)
          · rfl

/- A chain is extended if its first operand is. -/
theorem chain_append
    {level : Level}
    (hFirst :
      firstOperand level (tokens ++ back) =
        (firstOperand level tokens).extend back) :
    (chain level (tokens ++ back)).val =
      (chain level tokens).val.extend back := by
  rw [val_chain, val_chain, hFirst]
  apply Reading.andThen_extend
  intro left reports rest hDone
  have hLength := length_rest_firstOperand_lt hDone
  apply chainRest_append hBack
  intro shorter hLess
  exact hShorter shorter (Nat.lt_trans hLess hLength)

theorem assignment_append_step
    (hLeft :
      (chain .disjunction (tokens ++ back)).val =
        (chain .disjunction tokens).val.extend back) :
    (assignment (tokens ++ back)).val =
      (assignment tokens).val.extend back := by
  rw [val_assignment, val_assignment, hLeft]
  apply Reading.andThen_extend
  intro left reports rest hDone
  have hLength := BoundedReading.length_rest_lt hDone
  cases rest with
  | nil =>
      rcases hBack.exists_cons with ⟨t, rest, rfl, hKind⟩
      simp [assignmentRest, isSymbol_of_newStatement hKind,
        Reading.extend]
  | cons t rest =>
      rw [List.cons_append, assignmentRest, assignmentRest]
      split
      · rw [(hShorter rest (Nat.lt_of_succ_lt hLength)).2]
        apply Reading.andThen_extend
        intro value reports after _
        rfl
      · rfl

end Shorter

/- No expression goes on with a keyword of a statement. -/
theorem expression_append
    (tokens : List Token) :
    (∀ level,
      (chain level (tokens ++ back)).val =
        (chain level tokens).val.extend back) ∧
    (assignment (tokens ++ back)).val =
      (assignment tokens).val.extend back := by
  induction tokens using length_induction with
  | step tokens ih =>
      have hChain :=
        chain_induction
          (P := fun read =>
            read (tokens ++ back) =
              (read tokens).extend back)
          (unary_append hBack ih)
          fun _ hFirst => chain_append hBack ih hFirst
      exact
        ⟨hChain,
          assignment_append_step hBack ih
            (hChain .disjunction)⟩

end Parse

end OcScript

------------------------------------------------------------
-- Declarations
------------------------------------------------------------

namespace OcScript

namespace Parse

open BoundedReading (expect)

/- The token opens neither a condition nor a block. -/
def isPlain
    (t : Token) :
    Bool :=
  t.kind ∉
    [TokenKind.keyword .ifWord, .keyword .whileWord,
      .symbol .leftBrace]

/-
  A declaration that is no condition and no block does not
  depend on the end marker.
-/
theorem attempt_of_isPlain
    {t : Token}
    (hPlain : isPlain t = true)
    (eof : Token)
    (rest : List Token) :
    attempt eof (t :: rest) =
      if t.isKeyword .varWord then
        (variableDeclaration rest).val
      else if t.isKeyword .printWord then
        (closedExpression .semicolonAfterValue
          rest).val.map (.print t)
      else
        (closedExpression .semicolonAfterExpression
          (t :: rest)).val.map .expression := by
  simp only [isPlain, List.mem_cons, List.not_mem_nil,
    or_false, not_or, decide_eq_true_eq] at hPlain
  rcases hPlain with ⟨hIf, hWhile, hBrace⟩
  rw [attempt]
  split
  · rfl
  split
  next hPrint =>
    exact
      val_statement_print (Token.isKeyword_iff.mp hPrint) rest
  next hNot =>
    rw [Token.isKeyword_iff] at hNot
    apply val_statement_expression
    simp [opensStatement, hIf, hNot, hWhile, hBrace]

/- What such a declaration reports is at its tokens. -/
theorem mem_of_mem_reports_attempt
    {eof t : Token}
    (hPlain : isPlain t = true)
    {rest : List Token}
    {e : ParseError}
    (hMem : e ∈ (attempt eof (t :: rest)).reports) :
    e.token ∈ t :: rest := by
  -- With a token in place of the end marker, no other is left.
  have hSame :
      attempt eof (t :: rest) = attempt t (t :: rest) := by
    rw [attempt_of_isPlain hPlain, attempt_of_isPlain hPlain]
  rw [hSame] at hMem
  have hInside := (attempt_stays t (t :: rest)).reports e hMem
  rcases List.mem_append.mp hInside with hToken | hFirst
  · exact hToken
  · rw [List.mem_singleton.mp hFirst]
    exact List.mem_cons_self ..

section OpensAnew

variable {back : List Token}
variable (hBack : OpensAnew back)

include hBack

theorem closedExpression_append
    (cause : ParseCause)
    (tokens : List Token) :
    (closedExpression cause (tokens ++ back)).val =
      (closedExpression cause tokens).val.extend back := by
  rw [val_closedExpression, val_closedExpression,
    (expression_append hBack tokens).2]
  apply Reading.andThen_extend
  intro value reports rest _
  rw [expect_symbol_append hBack, Reading.map_extend]

theorem initializer_append
    (tokens : List Token) :
    (initializer (tokens ++ back)).val =
      (initializer tokens).val.extend back := by
  cases tokens with
  | nil =>
      rcases hBack.exists_cons with ⟨t, rest, rfl, hKind⟩
      have hMissed :=
        expect_symbol_append hBack .semicolon
          .semicolonAfterDeclaration []
      rw [List.nil_append] at hMissed ⊢
      rw [val_initializer_cons,
        isSymbol_of_newStatement hKind,
        if_neg Bool.false_ne_true, hMissed]
      rfl
  | cons t rest =>
      rw [List.cons_append, val_initializer_cons,
        val_initializer_cons]
      split
      · rw [closedExpression_append hBack,
          Reading.map_extend]
      · rw [← List.cons_append, expect_symbol_append hBack,
          Reading.map_extend]

theorem variableDeclaration_append
    (tokens : List Token) :
    (variableDeclaration (tokens ++ back)).val =
      (variableDeclaration tokens).val.extend back := by
  have hName :
      (expect .identifier .variableName
          (tokens ++ back)).val =
        (expect .identifier .variableName
          tokens).val.extend back := by
    apply expect_append
    rcases hBack with ⟨t, hHead, hKind⟩
    intro u hMem hIdentifier
    cases Option.mem_unique hHead hMem
    rw [hIdentifier] at hKind
    simp [newStatementKinds] at hKind
  rw [val_variableDeclaration, val_variableDeclaration,
    hName]
  apply Reading.andThen_extend
  intro name reports rest _
  rw [initializer_append hBack, Reading.map_extend]

/-
  A declaration that is no condition and no block stays as
  it is, but for the tokens left.
-/
theorem attempt_append
    (eof : Token)
    {t : Token}
    (hPlain : isPlain t = true)
    (rest : List Token) :
    attempt eof (t :: rest ++ back) =
      (attempt eof (t :: rest)).extend back := by
  rw [attempt_of_isPlain hPlain, List.cons_append,
    attempt_of_isPlain hPlain]
  split
  · exact variableDeclaration_append hBack rest
  split
  · rw [closedExpression_append hBack, Reading.map_extend]
  · rw [← List.cons_append, closedExpression_append hBack,
      Reading.map_extend]

/- Skipping stops before the keyword at the latest. -/
theorem skipPast_append
    (previous : Token)
    (tokens : List Token) :
    skipPast previous (tokens ++ back) =
      skipPast previous tokens ++ back := by
  induction tokens generalizing previous with
  | nil =>
      rcases hBack.exists_cons with ⟨t, rest, rfl, hKind⟩
      simp [skipPast, startsStatement_of_newStatement hKind]
  | cons t rest ih =>
      simp only [List.cons_append, skipPast, ih]
      split <;> rfl

theorem resume_append
    (t : Token)
    (rest : List Token) :
    resume (t :: rest ++ back) =
      resume (t :: rest) ++ back :=
  skipPast_append hBack t rest

/-
  A declaration that is no condition and no block is
  recovered alike, unless it fails at the end.  Then the
  failure is blamed on the keyword, and reading goes on
  behind that.
-/
theorem declaration_append_cases
    (eof eof' : Token)
    {t : Token}
    (hPlain : isPlain t = true)
    (rest : List Token) :
    (∃ value reports left,
      (declaration eof (t :: rest)).val =
          ⟨value, reports, left⟩ ∧
        (declaration eof' (t :: rest ++ back)).val =
          ⟨value, reports, left ++ back⟩ ∧
        ∀ e ∈ reports, e.token ∈ t :: rest) ∨
    ∃ reports cause,
      (declaration eof (t :: rest)).val =
          ⟨.skipped, reports ++ [⟨eof, cause⟩], []⟩ ∧
        (declaration eof' (t :: rest ++ back)).val =
          ⟨.skipped,
            reports ++ [⟨back.headD eof', cause⟩],
            resume back⟩ := by
  have hLonger := attempt_append hBack eof' hPlain rest
  rw [attempt_of_isPlain hPlain eof',
    ← attempt_of_isPlain hPlain eof] at hLonger
  have hRest := (attempt_stays eof (t :: rest)).rest
  have hReports :
      ∀ e ∈ (attempt eof (t :: rest)).reports,
        e.token ∈ t :: rest :=
    fun e => mem_of_mem_reports_attempt hPlain
  rw [List.cons_append] at hLonger ⊢
  rw [val_declaration, val_declaration, hLonger]
  cases hRead : attempt eof (t :: rest) with
  | done value reports left =>
      rw [hRead] at hReports
      exact Or.inl ⟨value, reports, left, rfl, rfl, hReports⟩
  | failed cause reports unread =>
      rw [hRead] at hReports hRest
      cases unread with
      | nil =>
          exact Or.inr ⟨reports, cause, rfl, rfl⟩
      | cons u unread =>
          refine
            Or.inl
              ⟨.skipped, reports ++ [⟨u, cause⟩],
                resume (u :: unread), rfl, ?_, ?_⟩
          · rw [← resume_append hBack]
            rfl
          · rw [List.forall_mem_append,
              List.forall_mem_singleton]
            exact
              ⟨hReports, hRest.mem (List.mem_cons_self ..)⟩

end OpensAnew

end Parse

end OcScript
