import OcScript.Proofs.Parse.Reports
import OcScript.Proofs.Trees

/-
  This file proves how skipped statements in a program
  correspond to the failures that were reported on it.

  Every skipped statement was put in the place of a
  declaration whose failure was reported.  It can be lost
  again with a block around it that fails itself, but then
  it is replaced by another one.  So there are no more
  skipped statements than failures, and there is one if
  there is any failure.

  Key definitions include:
    * `OcScript.Stmt.isSkipped`
    * `OcScript.Stmt.placeholders`
    * `OcScript.Parse.Matched`

  Key theorems include:
    * `OcScript.Parse.traversal_matches`
    * `OcScript.Parsed.skipped_iff_failure`
-/

------------------------------------------------------------
-- Counting Skipped Statements and Failures
------------------------------------------------------------

namespace OcScript

namespace Stmt

/- The statement stands for a declaration that was skipped. -/
def isSkipped : Stmt → Bool
| .skipped => true
| _ => false

theorem isSkipped_iff
    {s : Stmt} :
    s.isSkipped = true ↔ s = .skipped := by
  cases s <;> simp [isSkipped]

/- The number of skipped statements, at any depth. -/
def placeholders
    (s : Stmt) :
    Nat :=
  s.parts.countP isSkipped

/- The number of skipped statements in a list. -/
def placeholdersAll
    (body : List Stmt) :
    Nat :=
  (partsAll body).countP isSkipped

theorem placeholders_of_isSimple
    {s : Stmt}
    (hSimple : s.isSimple = true) :
    s.placeholders = 0 := by
  cases s with
  | expression value => rfl
  | print keyword value => rfl
  | declare name initial => rfl
  | _ => cases hSimple

@[simp] theorem placeholders_skipped :
    placeholders .skipped = 1 :=
  rfl

@[simp] theorem placeholders_block
    (body : List Stmt) :
    placeholders (.block body) = placeholdersAll body := by
  simp [placeholders, placeholdersAll, parts, isSkipped]

@[simp] theorem placeholders_ifThen
    (test : Expr)
    (thenBranch : Stmt) :
    placeholders (.ifThen test thenBranch) =
      thenBranch.placeholders := by
  simp [placeholders, parts, isSkipped]

@[simp] theorem placeholders_ifElse
    (test : Expr)
    (thenBranch elseBranch : Stmt) :
    placeholders (.ifElse test thenBranch elseBranch) =
      thenBranch.placeholders + elseBranch.placeholders := by
  simp [placeholders, parts, isSkipped]

@[simp] theorem placeholders_whileDo
    (test : Expr)
    (body : Stmt) :
    placeholders (.whileDo test body) =
      body.placeholders := by
  simp [placeholders, parts, isSkipped]

@[simp] theorem placeholdersAll_nil :
    placeholdersAll [] = 0 :=
  rfl

@[simp] theorem placeholdersAll_cons
    (s : Stmt)
    (rest : List Stmt) :
    placeholdersAll (s :: rest) =
      s.placeholders + placeholdersAll rest := by
  simp [placeholders, placeholdersAll, partsAll]

end Stmt

namespace Parse

/-
  There are no more skipped statements than failures, and
  one of them if there is a failure.
-/
structure Matched
    (placeholders : Nat)
    (reports : List ParseError) :
    Prop where
  le : placeholders ≤ reports.countP ParseError.isFailure
  pos :
    0 < reports.countP ParseError.isFailure →
    0 < placeholders

namespace Matched

theorem nil :
    Matched 0 [] :=
  ⟨Nat.le_refl 0, id⟩

/- Parts that match are put together. -/
theorem append
    {m n : Nat}
    {earlier later : List ParseError}
    (hFirst : Matched m earlier)
    (hNext : Matched n later) :
    Matched (m + n) (earlier ++ later) := by
  rcases hFirst with ⟨hFirstLe, hFirstPos⟩
  rcases hNext with ⟨hNextLe, hNextPos⟩
  refine ⟨?_, ?_⟩ <;>
    · rw [List.countP_append]
      omega

/- Reports on targets alone match no skipped statement. -/
theorem of_targets
    {used : List Token}
    {reports : List ParseError}
    (hTargets : TargetsIn used reports) :
    Matched 0 reports := by
  have hNone : reports.countP ParseError.isFailure = 0 := by
    rw [List.countP_eq_zero]
    intro e hMem
    simp [(hTargets.targets e hMem).1]
  exact ⟨Nat.zero_le _, by simp [hNone]⟩

/- A recovered declaration matches its own failure. -/
theorem of_failed
    (reports : List ParseError)
    {e : ParseError}
    (hFailure : e.isFailure = true) :
    Matched 1 (reports ++ [e]) := by
  have hCount :
      (reports ++ [e]).countP ParseError.isFailure =
        reports.countP ParseError.isFailure + 1 := by
    simp [List.countP_append, hFailure]
  exact ⟨by omega, fun _ => Nat.one_pos⟩

end Matched

end Parse

end OcScript

------------------------------------------------------------
-- Statements
------------------------------------------------------------

namespace OcScript

open Parse (Matched TargetsIn)

/-
  A statement that is read matches its reports, and one that
  is not was not failed because of a target.
-/
def Reading.Matches : Reading Stmt → Prop
| .done s reports _ => Matched s.placeholders reports
| .failed cause _ _ => cause ≠ .assignmentTarget

namespace Reading

/- Reports on targets do not count. -/
theorem Matches.after
    {r : Reading Stmt}
    (hMatches : r.Matches)
    {used : List Token}
    {earlier : List ParseError}
    (hTargets : TargetsIn used earlier) :
    (r.after earlier).Matches := by
  cases r with
  | done s reports rest =>
      have hNone := Matched.of_targets hTargets
      have hBoth := hNone.append hMatches
      rw [Nat.zero_add] at hBoth
      exact hBoth
  | failed cause reports rest =>
      exact hMatches

end Reading

namespace Parse

open Reading (Matches)

/- The branches of a condition match together. -/
theorem branchesRest_matches
    (eof : Token)
    (test : Expr)
    {thenBranch : Stmt}
    {reports : List ParseError}
    (hThen : Matched thenBranch.placeholders reports)
    {rest : List Token}
    (hElse :
      ∀ t after,
        rest = t :: after →
        (statement eof after).val.Matches) :
    ((branchesRest eof test thenBranch rest).after
      reports).Matches := by
  have hAlone :
      Matched (Stmt.ifThen test thenBranch).placeholders
        (reports ++ []) := by
    simpa using hThen
  cases rest with
  | nil =>
      exact hAlone
  | cons t after =>
      rw [branchesRest]
      split
      · have hRead := hElse t after rfl
        cases hStatement : (statement eof after).val with
        | failed cause later left =>
            rw [hStatement] at hRead
            exact hRead
        | done elseBranch later left =>
            rw [hStatement] at hRead
            have hBoth := hThen.append hRead
            simpa [Matches, Reading.after] using hBoth
      · exact hAlone

/-
  Skipped statements match the failures in every step of the
  parser.
-/
theorem traversal_matches
    (eof : Token) :
    Traversal eof
      (fun _ r => r.Matches)
      (fun _ body =>
        Matched (Stmt.placeholdersAll body.value)
          body.reports) where
  simple := by
    intro tokens r hTargets hSimple
    cases r with
    | failed cause reports rest =>
        exact hTargets.fails
    | done s reports rest =>
        rcases hTargets.reports with ⟨used, _, hUsed⟩
        have hNone :=
          Stmt.placeholders_of_isSimple
            (hSimple s reports rest rfl)
        rw [Matches, hNone]
        exact .of_targets hUsed
  behind := by
    intro tokens r next hTargets hNext
    cases r with
    | failed cause reports rest =>
        exact hTargets.fails
    | done test reports rest =>
        rcases hTargets.reports with ⟨used, _, hUsed⟩
        exact (hNext test reports rest rfl).after hUsed
  branches := by
    intro tokens test r hThen hElse
    cases r with
    | failed cause reports rest =>
        exact hThen
    | done thenBranch reports rest =>
        apply branchesRest_matches eof test hThen
        rintro t after rfl
        exact hElse thenBranch reports t after rfl
  loop := by
    intro tokens test r hBody
    cases r with
    | failed cause reports rest =>
        exact hBody
    | done body reports rest =>
        simpa [Matches] using hBody
  block := by
    intro t rest body _ hBody
    rcases BoundedReading.val_expect_cases
        (.symbol .rightBrace) .closingBrace body.rest with
      ⟨brace, left, _, hClose⟩ | hClose
    · rw [hClose]
      simpa [Matches, Reading.after] using hBody
    · rw [hClose]
      simp [Matches, Reading.after]
  stop := fun _ => .nil
  item := by
    intro t rest r others hFirst hOthers
    cases r with
    | done s reports left =>
        rw [Stmt.placeholdersAll_cons]
        exact hFirst.append hOthers
    | failed cause reports unread =>
        have hSkipped :
            Matched 1
              (reports ++ [⟨unread.headD eof, cause⟩]) :=
          .of_failed reports (decide_eq_true hFirst)
        rw [Stmt.placeholdersAll_cons]
        exact hSkipped.append hOthers

end Parse

end OcScript

------------------------------------------------------------
-- Programs
------------------------------------------------------------

namespace OcScript

namespace Parsed

/-
  A program holds a skipped statement just if some error is
  not about the target of an assignment.  There are no more
  skipped statements than such errors.
-/
theorem skipped_iff_failure
    (tokens : List Token) :
    (Stmt.skipped ∈
        Stmt.partsAll (ofTokens tokens).program ↔
      ∃ e ∈ (ofTokens tokens).errors,
        e.cause.message ≠ "Invalid assignment target.") ∧
    (Stmt.partsAll
        (ofTokens tokens).program).countP Stmt.isSkipped ≤
      (ofTokens tokens).errors.countP fun e =>
        e.cause.message ≠ "Invalid assignment target." := by
  have hMatched :
      Parse.Matched
        (Stmt.placeholdersAll (ofTokens tokens).program)
        (ofTokens tokens).errors :=
    (Parse.traversal_matches _).body _
  refine ⟨?_, ?_⟩
  · have hSkipped :
        Stmt.skipped ∈
            Stmt.partsAll (ofTokens tokens).program ↔
          0 < Stmt.placeholdersAll
            (ofTokens tokens).program := by
      simp [Stmt.placeholdersAll, List.countP_pos_iff,
        Stmt.isSkipped_iff]
    have hErrors :
        (∃ e ∈ (ofTokens tokens).errors,
            e.cause.message ≠
              "Invalid assignment target.") ↔
          0 < (ofTokens tokens).errors.countP
            ParseError.isFailure := by
      simp only [List.countP_pos_iff,
        ParseError.isFailure_iff]
    rw [hSkipped, hErrors]
    exact
      ⟨fun hPos => Nat.lt_of_lt_of_le hPos hMatched.le,
        hMatched.pos⟩
  · rw [ParseError.decide_message_ne]
    exact hMatched.le

/-
  A declaration without a name is skipped; an assignment to
  what is no name is reported, and its left side is kept.
-/
example :
    ofTokens
        [⟨.keyword .varWord, "var", 1⟩,
          ⟨.symbol .semicolon, ";", 1⟩,
          ⟨.symbol .leftParen, "(", 2⟩,
          ⟨.identifier, "a", 2⟩,
          ⟨.symbol .rightParen, ")", 2⟩,
          ⟨.symbol .equal, "=", 2⟩,
          ⟨.identifier, "b", 2⟩,
          ⟨.symbol .semicolon, ";", 2⟩,
          Token.atEnd 2] =
      ⟨[.skipped,
          .expression (.group (.var ⟨.identifier, "a", 2⟩))],
        [⟨⟨.symbol .semicolon, ";", 1⟩, .variableName⟩,
          ⟨⟨.symbol .equal, "=", 2⟩,
            .assignmentTarget⟩]⟩ := by
  cbv

end Parsed

end OcScript
