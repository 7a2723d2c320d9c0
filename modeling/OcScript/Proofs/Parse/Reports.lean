import Mathlib.Data.List.Perm.Subperm
import OcScript.Proofs.Parse.Equations

/-
  This file gathers what the parser can report while it
  reads, for proofs that follow all reports on a program.

  An expression reports nothing but wrong targets of
  assignments, each at an equals sign of its own that has
  been read.  All other errors are failures, reported where
  a declaration is recovered.  What is kept by every step
  from expressions to lists of declarations is kept by whole
  programs.

  Key definitions include:
    * `OcScript.ParseError.isFailure`
    * `OcScript.Parse.TargetsIn`
    * `OcScript.Reading.OnlyTargets`
    * `OcScript.Parse.Traversal`

  Key theorems include:
    * `OcScript.ParseError.isFailure_iff`
    * `OcScript.Parse.expression_onlyTargets`
    * `OcScript.Parse.Traversal.statement`
    * `OcScript.Parse.Traversal.body`
-/

------------------------------------------------------------
-- Failures and Targets
------------------------------------------------------------

namespace OcScript

namespace ParseError

/-
  The error made a reading fail, unlike one about the target
  of an assignment.
-/
def isFailure
    (e : ParseError) :
    Bool :=
  e.cause ≠ .assignmentTarget

/- What the message of any failure starts with. -/
theorem head?_message
    {cause : ParseCause}
    (hCause : cause ≠ .assignmentTarget) :
    cause.message.toList.head? = some 'E' := by
  have hAppend :
      ∀ front back : String,
        front.toList.head? = some 'E' →
        (front ++ back).toList.head? = some 'E' := by
    intro front back hFront
    rw [String.toList_append, List.head?_append, hFront]
    rfl
  cases cause with
  | assignmentTarget => exact absurd rfl hCause
  | openingParenAfter keyword =>
      exact hAppend _ _ (hAppend _ _ (by decide))
  | closingParenAfterIf keyword =>
      exact hAppend _ _ (hAppend _ _ (by decide))
  | _ => decide

/- Failures are told from other errors by what they say. -/
theorem isFailure_iff
    {e : ParseError} :
    e.isFailure = true ↔
      e.cause.message ≠ "Invalid assignment target." := by
  rw [isFailure, decide_eq_true_iff]
  constructor
  · intro hCause hMessage
    have hHead := head?_message hCause
    rw [hMessage] at hHead
    revert hHead
    decide
  · intro hMessage hCause
    rw [hCause] at hMessage
    exact hMessage rfl

/- So failures are counted by what is said of them. -/
theorem decide_message_ne :
    (fun e : ParseError =>
        decide
          (e.cause.message ≠
            "Invalid assignment target.")) =
      isFailure := by
  funext e
  rw [Bool.eq_iff_iff, decide_eq_true_iff, isFailure_iff]

end ParseError

namespace Parse

/-
  Only targets are reported, each at a token of its own
  among those that were read.
-/
structure TargetsIn
    (used : List Token)
    (reports : List ParseError) :
    Prop where
  once : (reports.map ParseError.token).Subperm used
  targets :
    ∀ e ∈ reports,
      e.isFailure = false ∧ e.token.isEof = false

namespace TargetsIn

theorem silent
    (used : List Token) :
    TargetsIn used [] :=
  ⟨List.nil_subperm, by simp⟩

theorem append
    {front back : List Token}
    {earlier later : List ParseError}
    (hFront : TargetsIn front earlier)
    (hBack : TargetsIn back later) :
    TargetsIn (front ++ back) (earlier ++ later) := by
  refine ⟨?_, ?_⟩
  · rw [List.map_append]
    exact hFront.once.append hBack.once
  · rw [List.forall_mem_append]
    exact ⟨hFront.targets, hBack.targets⟩

/- A report on a target is made behind those on its value. -/
theorem target
    {equals : Token}
    (hEquals : equals.isSymbol .equal = true)
    {used : List Token}
    {reports : List ParseError}
    (hValue : TargetsIn used reports) :
    TargetsIn (equals :: used)
      (reports ++ [⟨equals, .assignmentTarget⟩]) := by
  have hKind := Token.isSymbol_iff.mp hEquals
  have hHere :
      TargetsIn [equals] [⟨equals, .assignmentTarget⟩] := by
    refine ⟨List.Subperm.refl _, ?_⟩
    rw [List.forall_mem_singleton]
    exact ⟨rfl, by simp [Token.isEof, hKind]⟩
  have hSwapped := hValue.append hHere
  refine ⟨hSwapped.once.trans ?_, hSwapped.targets⟩
  exact List.perm_append_singleton equals used |>.subperm

end TargetsIn

end Parse

end OcScript

------------------------------------------------------------
-- Readings That Report Only Targets
------------------------------------------------------------

namespace OcScript

open Parse (TargetsIn)

namespace Reading

variable {α β : Type}

/- A target alone does not make the reading fail. -/
def FailsElsewhere : Reading α → Prop
| .done _ _ _ => True
| .failed cause _ _ => cause ≠ .assignmentTarget

theorem FailsElsewhere.after
    {r : Reading α}
    (hFails : r.FailsElsewhere)
    (earlier : List ParseError) :
    (r.after earlier).FailsElsewhere := by
  cases r <;> exact hFails

/-
  Nothing but targets among the tokens read is reported, and
  they alone do not make the reading fail.
-/
structure OnlyTargets
    (tokens : List Token)
    (r : Reading α) :
    Prop where
  reports :
    ∃ used,
      tokens = used ++ r.rest ∧ TargetsIn used r.reports
  fails : r.FailsElsewhere

end Reading

namespace Reading.OnlyTargets

variable {α β : Type}
variable {tokens : List Token}

theorem done
    (value : α)
    {rest : List Token}
    (hRest : rest <:+ tokens) :
    (Reading.done value [] rest).OnlyTargets tokens := by
  rcases hRest with ⟨used, hUsed⟩
  exact ⟨⟨used, hUsed.symm, .silent used⟩, trivial⟩

theorem failed
    (cause : ParseCause)
    (hCause : cause ≠ .assignmentTarget)
    (tokens : List Token) :
    (Reading.failed cause [] tokens :
      Reading α).OnlyTargets tokens :=
  ⟨⟨[], rfl, .silent []⟩, hCause⟩

theorem past
    {r : Reading α}
    (hTargets : r.OnlyTargets tokens)
    (t : Token) :
    r.OnlyTargets (t :: tokens) := by
  rcases hTargets.reports with ⟨used, hRest, hUsed⟩
  have hPast := (TargetsIn.silent [t]).append hUsed
  exact
    ⟨⟨t :: used, congrArg (t :: ·) hRest, hPast⟩,
      hTargets.fails⟩

theorem after
    {r : Reading α}
    {front : List Token}
    {earlier : List ParseError}
    (hLater : r.OnlyTargets tokens)
    (hFront : TargetsIn front earlier) :
    (r.after earlier).OnlyTargets (front ++ tokens) := by
  rcases hLater.reports with ⟨back, hRest, hBack⟩
  refine ⟨⟨front ++ back, ?_, ?_⟩, hLater.fails.after _⟩
  · rw [hRest, List.append_assoc]
    cases r <;> rfl
  · have hBoth := hFront.append hBack
    cases r <;> exact hBoth

theorem andThen
    {r : Reading α}
    {next : α → List Token → Reading β}
    (hFirst : r.OnlyTargets tokens)
    (hNext :
      ∀ value reports rest,
        r = .done value reports rest →
        (next value rest).OnlyTargets rest) :
    (r.andThen next).OnlyTargets tokens := by
  cases r with
  | failed cause reports rest =>
      exact ⟨hFirst.reports, hFirst.fails⟩
  | done value reports rest =>
      rcases hFirst.reports with ⟨front, rfl, hFront⟩
      exact (hNext value reports rest rfl).after hFront

theorem map
    {r : Reading α}
    (hTargets : r.OnlyTargets tokens)
    (f : α → β) :
    (r.map f).OnlyTargets tokens := by
  apply hTargets.andThen
  intro value reports rest _
  exact done (f value) (List.suffix_refl rest)

theorem expect
    (kind : TokenKind)
    (cause : ParseCause)
    (hCause : cause ≠ .assignmentTarget)
    (tokens : List Token) :
    (BoundedReading.expect kind cause tokens).val.OnlyTargets
      tokens := by
  rcases BoundedReading.val_expect_cases kind cause tokens
    with ⟨t, rest, rfl, hRead⟩ | hRead
  · rw [hRead]
    exact done t (List.suffix_cons t rest)
  · rw [hRead]
    exact failed cause hCause tokens

end Reading.OnlyTargets

end OcScript

------------------------------------------------------------
-- Expressions
------------------------------------------------------------

namespace OcScript

namespace Parse

open Reading (OnlyTargets)

variable {tokens : List Token}

/- A wrong target is reported behind what its value is. -/
theorem onlyTargets_assignTo
    {t : Token}
    (hEquals : t.isSymbol .equal = true)
    (left : Expr)
    {r : Reading Expr}
    (hValue : r.OnlyTargets tokens) :
    (r.andThen fun value rest =>
      .done (assignTo left t value).1
        (assignTo left t value).2 rest).OnlyTargets
          (t :: tokens) := by
  cases r with
  | failed cause reports rest =>
      exact hValue.past t
  | done value reports rest =>
      rcases hValue.reports with ⟨used, hRest, hUsed⟩
      refine ⟨⟨t :: used, congrArg (t :: ·) hRest, ?_⟩, ?_⟩
      · cases left with
        | var name =>
            have hPast := (TargetsIn.silent [t]).append hUsed
            simpa [assignTo, Reading.after,
              Reading.reports] using hPast
        | _ => exact hUsed.target hEquals
      · trivial

/- Expressions of every form report only targets. -/
structure ReportsTargets
    (tokens : List Token) :
    Prop where
  chain :
    ∀ level, (chain level tokens).val.OnlyTargets tokens
  assignment : (assignment tokens).val.OnlyTargets tokens

section Shorter

variable
  (hShorter :
    ∀ shorter : List Token,
      shorter.length < tokens.length →
      ReportsTargets shorter)

include hShorter

theorem primary_onlyTargets :
    (primary tokens).val.OnlyTargets tokens := by
  cases tokens with
  | nil =>
      rw [val_primary_nil]
      exact .failed .expression (by simp) []
  | cons t rest =>
      cases hAtom : atom? t with
      | some atom =>
          rw [val_primary_atom hAtom]
          exact .done atom (List.suffix_cons t rest)
      | none =>
          rw [val_primary_of_not_atom hAtom]
          split
          · have hInner :=
              (hShorter rest (Nat.lt_succ_self _)).assignment
            apply OnlyTargets.past
            apply hInner.andThen
            intro inner reports after _
            exact
              (OnlyTargets.expect _ .closingParen (by simp)
                _).map _
          · exact .failed .expression (by simp) (t :: rest)

theorem unary_onlyTargets :
    (unary tokens).val.OnlyTargets tokens := by
  cases tokens with
  | nil =>
      rw [val_unary_nil]
      exact .failed .expression (by simp) []
  | cons t rest =>
      rw [val_unary_cons]
      split
      · have hOperand :=
          (hShorter rest (Nat.lt_succ_self _)).chain
            .comparison
        exact (hOperand.map _).past t
      · exact primary_onlyTargets hShorter

theorem chainRest_onlyTargets
    (level : Level)
    (left : Expr) :
    (chainRest level left tokens).val.OnlyTargets
      tokens := by
  induction tokens using length_induction
      generalizing left with
  | step tokens ih =>
      cases tokens with
      | nil =>
          rw [val_chainRest_nil]
          exact .done left (List.suffix_refl [])
      | cons t rest =>
          rw [val_chainRest_cons]
          split
          · have hOperand :=
              (hShorter rest (Nat.lt_succ_self _)).chain
                level.operandLevel
            apply OnlyTargets.past
            apply hOperand.andThen
            intro right reports after hDone
            have hLength :
                after.length < (t :: rest).length :=
              Nat.lt_succ_of_lt
                (BoundedReading.length_rest_lt hDone)
            apply ih after hLength
            intro shorter hLess
            exact
              hShorter shorter (Nat.lt_trans hLess hLength)
          · exact .done left (List.suffix_refl (t :: rest))

theorem chain_onlyTargets
    {level : Level}
    (hFirst :
      (firstOperand level tokens).OnlyTargets tokens) :
    (chain level tokens).val.OnlyTargets tokens := by
  rw [val_chain]
  apply hFirst.andThen
  intro left reports rest hDone
  have hLength := length_rest_firstOperand_lt hDone
  apply chainRest_onlyTargets
  intro shorter hLess
  exact hShorter shorter (Nat.lt_trans hLess hLength)

theorem assignment_onlyTargets
    (hLeft :
      (chain .disjunction tokens).val.OnlyTargets tokens) :
    (assignment tokens).val.OnlyTargets tokens := by
  rw [val_assignment]
  apply hLeft.andThen
  intro left reports rest hDone
  have hLength := BoundedReading.length_rest_lt hDone
  cases rest with
  | nil =>
      exact .done left (List.suffix_refl [])
  | cons t rest =>
      rw [assignmentRest]
      split
      next hEquals =>
        apply onlyTargets_assignTo hEquals
        exact
          (hShorter rest
            (Nat.lt_of_succ_lt hLength)).assignment
      next =>
        exact .done left (List.suffix_refl (t :: rest))

end Shorter

theorem expression_onlyTargets
    (tokens : List Token) :
    ReportsTargets tokens := by
  induction tokens using length_induction with
  | step tokens ih =>
      have hChain :=
        chain_induction
          (P := fun read =>
            (read tokens).OnlyTargets tokens)
          (unary_onlyTargets ih)
          fun _ hFirst => chain_onlyTargets ih hFirst
      exact
        ⟨hChain,
          assignment_onlyTargets ih (hChain .disjunction)⟩

theorem closedExpression_onlyTargets
    (cause : ParseCause)
    (hCause : cause ≠ .assignmentTarget)
    (tokens : List Token) :
    (closedExpression cause tokens).val.OnlyTargets
      tokens := by
  rw [val_closedExpression]
  apply (expression_onlyTargets tokens).assignment.andThen
  intro value reports rest _
  exact (OnlyTargets.expect _ _ hCause _).map _

theorem variableDeclaration_onlyTargets
    (tokens : List Token) :
    (variableDeclaration tokens).val.OnlyTargets tokens := by
  have hCause :
      ParseCause.semicolonAfterDeclaration ≠
        .assignmentTarget := by
    simp
  rw [val_variableDeclaration]
  apply
    (OnlyTargets.expect _ .variableName (by simp) _).andThen
  intro name reports rest _
  apply OnlyTargets.map
  cases rest with
  | nil =>
      exact .failed _ hCause []
  | cons t rest =>
      rw [val_initializer_cons]
      split
      · have hInitial :=
          closedExpression_onlyTargets _ hCause rest
        exact (hInitial.map _).past t
      · exact (OnlyTargets.expect _ _ hCause _).map _

theorem condition_onlyTargets
    (keyword : Token)
    (unclosed : ParseCause)
    (hUnclosed : unclosed ≠ .assignmentTarget)
    (tokens : List Token) :
    (condition keyword unclosed tokens).val.OnlyTargets
      tokens := by
  rw [val_condition]
  apply
    (OnlyTargets.expect _
      (.openingParenAfter keyword.lexeme) (by simp) _).andThen
  intro _ _ inside _
  apply (expression_onlyTargets inside).assignment.andThen
  intro value reports rest _
  exact (OnlyTargets.expect _ _ hUnclosed _).map _

end Parse

end OcScript

------------------------------------------------------------
-- Statements
------------------------------------------------------------

namespace OcScript

/- The statement holds no other statement and is read. -/
def Stmt.isSimple : Stmt → Bool
| .expression _ => true
| .print _ _ => true
| .declare _ _ => true
| _ => false

namespace Parse

open BoundedReading (expect)
open Reading (OnlyTargets)

/-
  What all steps of the parser above expressions keep: if
  `S` holds of the readings of parts, it holds of that of a
  statement, and if it holds of statements, then `I` holds
  of what is kept of a list of declarations.
-/
structure Traversal
    (eof : Token)
    (S : List Token → Reading Stmt → Prop)
    (I : List Token → Recovered (List Stmt) → Prop) :
    Prop where
  simple :
    ∀ tokens (r : Reading Stmt),
      r.OnlyTargets tokens →
      (∀ s reports rest,
        r = .done s reports rest → s.isSimple = true) →
      S tokens r
  behind :
    ∀ tokens (r : Reading Expr) next,
      r.OnlyTargets tokens →
      (∀ test reports rest,
        r = .done test reports rest →
        S rest (next test rest)) →
      S tokens (r.andThen next)
  branches :
    ∀ tokens test r,
      S tokens r →
      (∀ s reports t rest,
        r = .done s reports (t :: rest) →
        S rest (statement eof rest).val) →
      S tokens (r.andThen (branchesRest eof test))
  loop :
    ∀ tokens test r,
      S tokens r → S tokens (r.map (.whileDo test))
  block :
    ∀ t rest (body : Recovered (List Stmt)),
      t.isSymbol .leftBrace = true →
      I rest body →
      S (t :: rest)
        (((expect (.symbol .rightBrace) .closingBrace
          body.rest).val.map fun _ =>
            .block body.value).after body.reports)
  stop :
    ∀ tokens, I tokens ⟨[], [], tokens⟩
  item :
    ∀ t rest r (others : Recovered (List Stmt)),
      S (t :: rest) r →
      I (r.recovered eof).rest others →
      I (t :: rest)
        ⟨(r.recovered eof).value :: others.value,
          (r.recovered eof).reports ++ others.reports,
          others.rest⟩

namespace Traversal

variable {eof : Token}
variable {S : List Token → Reading Stmt → Prop}
variable {I : List Token → Recovered (List Stmt) → Prop}
variable (traversal : Traversal eof S I)

include traversal

/- What is read as one simple statement. -/
theorem simple_map
    {α : Type}
    {tokens : List Token}
    {r : Reading α}
    (hTargets : r.OnlyTargets tokens)
    {f : α → Stmt}
    (hSimple : ∀ value, (f value).isSimple = true) :
    S tokens (r.map f) := by
  apply traversal.simple _ _ (hTargets.map f)
  intro s reports rest hDone
  rcases Reading.map_eq_done_iff.mp hDone with
    ⟨value, _, rfl⟩
  exact hSimple value

theorem variableDeclaration
    (t : Token)
    (rest : List Token) :
    S (t :: rest) (Parse.variableDeclaration rest).val := by
  apply traversal.simple
  · exact (variableDeclaration_onlyTargets rest).past t
  · intro s reports left hDone
    rw [val_variableDeclaration] at hDone
    rcases Reading.andThen_eq_done_iff.mp hDone with
      ⟨name, _, _, _, _, hInitial, _⟩
    rcases Reading.map_eq_done_iff.mp hInitial with
      ⟨initial, _, rfl⟩
    rfl

theorem statement_step
    {tokens : List Token}
    (hShorter :
      ∀ shorter : List Token,
        shorter.length < tokens.length →
        S shorter (Parse.statement eof shorter).val ∧
          I shorter (items eof shorter).val) :
    S tokens (Parse.statement eof tokens).val := by
  cases tokens with
  | nil =>
      have hMissed :=
        closedExpression_onlyTargets
            .semicolonAfterExpression (by simp) []
      rw [Parse.statement, BoundedReading.val_map]
      exact traversal.simple_map hMissed fun _ => rfl
  | cons t rest =>
      by_cases hIf : t.kind = .keyword .ifWord
      · rw [val_statement_if hIf]
        have hTest :=
          condition_onlyTargets t
            (.closingParenAfterIf t.lexeme) (by simp) rest
        apply traversal.behind _ _ _ (hTest.past t)
        intro test reports after hDone
        have hLength :=
          Nat.lt_succ_of_lt
            (BoundedReading.length_rest_lt hDone)
        rw [val_ifBranches]
        apply traversal.branches
        · exact (hShorter after hLength).1
        intro s reports u left hThen
        have hLess := BoundedReading.length_rest_lt hThen
        exact
          (hShorter left
            (Nat.lt_trans (Nat.lt_of_succ_lt hLess)
              hLength)).1
      by_cases hPrint : t.kind = .keyword .printWord
      · rw [val_statement_print hPrint]
        have hValue :=
          closedExpression_onlyTargets
            .semicolonAfterValue (by simp) rest
        exact
          traversal.simple_map (hValue.past t) fun _ => rfl
      by_cases hWhile : t.kind = .keyword .whileWord
      · rw [val_statement_while hWhile]
        have hTest :=
          condition_onlyTargets t .closingParenAfterWhile
            (by simp) rest
        apply traversal.behind _ _ _ (hTest.past t)
        intro test reports after hDone
        apply traversal.loop
        exact
          (hShorter after
            (Nat.lt_succ_of_lt
              (BoundedReading.length_rest_lt hDone))).1
      by_cases hBrace : t.kind = .symbol .leftBrace
      · rw [val_statement_block hBrace]
        apply traversal.block
        · exact Token.isSymbol_iff.mpr hBrace
        · exact (hShorter rest (Nat.lt_succ_self _)).2
      have hOpens : opensStatement t = false := by
        simp [opensStatement, hIf, hPrint, hWhile, hBrace]
      have hValue :=
        closedExpression_onlyTargets
            .semicolonAfterExpression (by simp)
          (t :: rest)
      rw [val_statement_expression hOpens]
      exact traversal.simple_map hValue fun _ => rfl

theorem attempt
    {tokens : List Token}
    (hStatement :
      S tokens (Parse.statement eof tokens).val) :
    S tokens (Parse.attempt eof tokens) := by
  cases tokens with
  | nil =>
      exact hStatement
  | cons t rest =>
      rw [Parse.attempt]
      split
      · exact traversal.variableDeclaration t rest
      · exact hStatement

/- All statements and lists of declarations are reached. -/
theorem statement_and_items
    (tokens : List Token) :
    S tokens (Parse.statement eof tokens).val ∧
      I tokens (items eof tokens).val := by
  induction tokens using length_induction with
  | step tokens ih =>
      have hStatement := traversal.statement_step ih
      refine ⟨hStatement, ?_⟩
      cases tokens with
      | nil =>
          rw [val_items_nil]
          exact traversal.stop []
      | cons t rest =>
          rw [val_items_cons]
          split
          · exact traversal.stop (t :: rest)
          · have hLength :=
              (declaration eof (t :: rest)).property
            have hOthers :=
              (ih _ (Nat.lt_of_le_of_lt hLength
                (Nat.lt_succ_self _))).2
            simp only [val_declaration] at hOthers ⊢
            exact
              traversal.item t rest _ _
                (traversal.attempt hStatement) hOthers

theorem statement
    (tokens : List Token) :
    S tokens (Parse.statement eof tokens).val :=
  (traversal.statement_and_items tokens).1

/- What is kept of lists of declarations is of bodies. -/
theorem body
    (tokens : List Token) :
    I tokens
      ⟨(Parsed.ofBody eof tokens).program,
        (Parsed.ofBody eof tokens).errors, []⟩ := by
  induction tokens using length_induction with
  | step tokens ih =>
      cases tokens with
      | nil =>
          rw [Parsed.ofBody_nil]
          exact traversal.stop []
      | cons t rest =>
          have hLength :=
            (declaration eof (t :: rest)).property
          have hOthers :=
            ih _ (Nat.lt_of_le_of_lt hLength
              (Nat.lt_succ_self _))
          have hFirst :=
            traversal.attempt
              (traversal.statement (t :: rest))
          rw [Parsed.ofBody_cons]
          simp only [val_declaration] at hOthers ⊢
          exact traversal.item t rest _ _ hFirst hOthers

end Traversal

end Parse

end OcScript
