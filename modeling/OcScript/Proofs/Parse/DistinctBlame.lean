import OcScript.Proofs.Parse.Recovery
import OcScript.Proofs.Parse.Reports

/-
  This file proves that no token is blamed twice.

  What is reported stands at tokens that have been read or
  skipped by then, and a token is read or skipped only once.
  Failures are reported in the order of their tokens; only
  wrong targets are reported behind what follows them.  The
  end is never skipped, so every block that is still open
  there fails at it, and the declaration inside of them, too.

  Key definitions include:
    * `OcScript.Parse.blamedInside`
    * `OcScript.Parse.endReports`
    * `OcScript.Parse.Accounts`
    * `OcScript.Reading.Accounted`
    * `OcScript.Recovered.Accounted`

  Key theorems include:
    * `OcScript.Parse.recovered_accounted`
    * `OcScript.Parse.traversal_accounted`
    * `OcScript.Parsed.count_blamed_le`
    * `OcScript.Parsed.no_token_blamed_twice`
-/

------------------------------------------------------------
-- Reports at Distinct Tokens
------------------------------------------------------------

namespace OcScript

namespace Parse

/- The tokens blamed before the end, in order of report. -/
def blamedInside
    (reports : List ParseError) :
    List Token :=
  (reports.map ParseError.token).filter fun t => !t.isEof

/- The number of reports that are made at the end. -/
def endReports
    (reports : List ParseError) :
    Nat :=
  reports.countP fun e => e.token.isEof

/- The number of braces that open blocks. -/
def openings
    (tokens : List Token) :
    Nat :=
  tokens.countP fun t => t.isSymbol .leftBrace

@[simp] theorem blamedInside_append
    (earlier later : List ParseError) :
    blamedInside (earlier ++ later) =
      blamedInside earlier ++ blamedInside later := by
  simp [blamedInside]

@[simp] theorem endReports_append
    (earlier later : List ParseError) :
    endReports (earlier ++ later) =
      endReports earlier + endReports later := by
  simp [endReports]

@[simp] theorem openings_append
    (front back : List Token) :
    openings (front ++ back) =
      openings front + openings back := by
  simp [openings]

/-
  Every report before the end has a token of its own among
  those read or skipped, and failures are in their order.
-/
structure Accounts
    (used : List Token)
    (reports : List ParseError) :
    Prop where
  once : (blamedInside reports).Subperm used
  inOrder :
    (blamedInside
      (reports.filter ParseError.isFailure)).Sublist used

namespace Accounts

theorem silent
    (used : List Token) :
    Accounts used [] :=
  ⟨List.nil_subperm, List.nil_sublist used⟩

theorem append
    {front back : List Token}
    {earlier later : List ParseError}
    (hFront : Accounts front earlier)
    (hBack : Accounts back later) :
    Accounts (front ++ back) (earlier ++ later) := by
  refine ⟨?_, ?_⟩
  · rw [blamedInside_append]
    exact hFront.once.append hBack.once
  · rw [List.filter_append, blamedInside_append]
    exact hFront.inOrder.append hBack.inOrder

/- Reports on targets may be made in any order. -/
theorem of_targets
    {used : List Token}
    {reports : List ParseError}
    (hTargets : TargetsIn used reports) :
    Accounts used reports := by
  have hNone :
      reports.filter ParseError.isFailure = [] := by
    rw [List.filter_eq_nil_iff]
    intro e hMem
    simp [(hTargets.targets e hMem).1]
  refine ⟨?_, ?_⟩
  · exact List.filter_sublist.subperm.trans hTargets.once
  · rw [hNone]
    exact List.nil_sublist used

/- A failure is reported at a token that is then skipped. -/
theorem of_failure
    (t : Token)
    (skipped : List Token)
    (cause : ParseCause) :
    Accounts (t :: skipped) [⟨t, cause⟩] := by
  have hHere :
      ∀ reports : List ParseError,
        reports.Sublist [⟨t, cause⟩] →
        (blamedInside reports).Sublist (t :: skipped) := by
    intro reports hReports
    have hTokens := hReports.map ParseError.token
    have hFirst : [t].Sublist (t :: skipped) :=
      (List.nil_sublist skipped).cons_cons t
    exact List.filter_sublist.trans (hTokens.trans hFirst)
  exact
    ⟨(hHere _ (List.Sublist.refl _)).subperm,
      hHere _ List.filter_sublist⟩

/- A failure at the end blames no token before it. -/
theorem of_end
    {eof : Token}
    (hEof : eof.isEof = true)
    (cause : ParseCause) :
    Accounts [] [⟨eof, cause⟩] := by
  have hNone :
      ∀ reports : List ParseError,
        reports.Sublist [⟨eof, cause⟩] →
        blamedInside reports = [] := by
    intro reports hReports
    rw [blamedInside, List.filter_eq_nil_iff]
    intro t hMem
    have hTokens := hReports.map ParseError.token
    rw [List.mem_singleton.mp (hTokens.mem hMem)]
    simp [hEof]
  refine ⟨?_, ?_⟩
  · rw [hNone _ (List.Sublist.refl _)]
  · rw [hNone _ List.filter_sublist]

end Accounts

theorem endReports_of_targets
    {used : List Token}
    {reports : List ParseError}
    (hTargets : TargetsIn used reports) :
    endReports reports = 0 := by
  rw [endReports, List.countP_eq_zero]
  intro e hMem
  simp [(hTargets.targets e hMem).2]

end Parse

end OcScript

------------------------------------------------------------
-- Readings That Account for Their Reports
------------------------------------------------------------

namespace OcScript

open Parse
  (Accounts TargetsIn blamedInside endReports openings)

namespace Reading

variable {α β : Type}

/-
  Nothing is reported at the end by a reading that is done.
  One that failed there has reported at most one failure for
  each block that it opened.
-/
def EndsWithin
    (used : List Token) :
    Reading α → Prop
| .done _ reports _ => endReports reports = 0
| .failed _ reports rest =>
    endReports reports = 0 ∨
      rest = [] ∧ endReports reports ≤ openings used

/- A reading accounts for its reports by what it read. -/
def Accounted
    (tokens : List Token)
    (r : Reading α) : Prop :=
  ∃ used,
    tokens = used ++ r.rest ∧
      Accounts used r.reports ∧ r.EndsWithin used

namespace Accounted

variable {tokens : List Token}

theorem done
    (value : α)
    (tokens : List Token) :
    (Reading.done value [] tokens).Accounted tokens :=
  ⟨[], rfl, .silent [], rfl⟩

theorem of_onlyTargets
    {r : Reading α}
    (hTargets : r.OnlyTargets tokens) :
    r.Accounted tokens := by
  rcases hTargets.reports with ⟨used, hRest, hUsed⟩
  refine ⟨used, hRest, .of_targets hUsed, ?_⟩
  have hNone := Parse.endReports_of_targets hUsed
  cases r with
  | done value reports rest => exact hNone
  | failed cause reports rest => exact Or.inl hNone

/- What was read before is accounted for, too. -/
theorem after
    {r : Reading α}
    (hLater : r.Accounted tokens)
    {front : List Token}
    {earlier : List ParseError}
    (hFront : Accounts front earlier)
    (hNone : endReports earlier = 0) :
    (r.after earlier).Accounted (front ++ tokens) := by
  rcases hLater with ⟨back, hRest, hBack, hEnds⟩
  have hBoth := hFront.append hBack
  refine ⟨front ++ back, ?_, ?_, ?_⟩
  · rw [hRest, List.append_assoc]
    cases r <;> rfl
  · cases r <;> exact hBoth
  · cases r with
    | done value reports rest =>
        simpa [EndsWithin, Reading.after, hNone] using hEnds
    | failed cause reports rest =>
        simp only [EndsWithin, Reading.after,
          Parse.endReports_append, Parse.openings_append,
          hNone, Nat.zero_add] at hEnds ⊢
        rcases hEnds with hEnds | ⟨hRest, hEnds⟩
        · exact Or.inl hEnds
        · exact
            Or.inr ⟨hRest, Nat.le_add_left_of_le hEnds⟩

theorem past
    {r : Reading α}
    (hAccounted : r.Accounted tokens)
    (t : Token) :
    r.Accounted (t :: tokens) := by
  have hPast :=
    hAccounted.after (Accounts.silent [t])
      (show endReports [] = 0 from rfl)
  rw [Reading.after_nil] at hPast
  exact hPast

/- The second reading accounts for what the first left. -/
theorem andThen
    {r : Reading α}
    {next : α → List Token → Reading β}
    (hFirst : r.Accounted tokens)
    (hNext :
      ∀ value reports rest,
        r = .done value reports rest →
        (next value rest).Accounted rest) :
    (r.andThen next).Accounted tokens := by
  cases r with
  | failed cause reports rest =>
      exact hFirst
  | done value reports rest =>
      rcases hFirst with ⟨front, hSplit, hFront, hNone⟩
      rw [hSplit]
      exact
        (hNext value reports rest rfl).after hFront hNone

theorem map
    {r : Reading α}
    (hAccounted : r.Accounted tokens)
    (f : α → β) :
    (r.map f).Accounted tokens := by
  apply hAccounted.andThen
  intro value reports rest _
  exact done (f value) rest

/- If no end is marked in the tokens, then none is left. -/
theorem isEof_of_mem_rest
    {r : Reading α}
    (hAccounted : r.Accounted tokens)
    (hTokens : ∀ t ∈ tokens, t.isEof = false)
    {t : Token}
    (hMem : t ∈ r.rest) :
    t.isEof = false := by
  rcases hAccounted with ⟨used, hSplit, _⟩
  apply hTokens
  rw [hSplit]
  exact List.mem_append_right used hMem

end Accounted

end Reading

/-
  What is kept after failures accounts for all reports.  At
  the end, there is at most one more than opened blocks.
-/
def Recovered.Accounted
    {α : Type}
    (tokens : List Token)
    (d : Recovered α) : Prop :=
  ∃ used,
    tokens = used ++ d.rest ∧
      Accounts used d.reports ∧
      (endReports d.reports = 0 ∨
        tokens ≠ [] ∧ d.rest = [] ∧
          endReports d.reports ≤ openings used + 1)

namespace Parse

open Reading (Accounted)

variable {eof : Token}

/-
  The failure of a declaration is blamed on the next token,
  which is skipped, or on the end.
-/
theorem recovered_accounted
    (hEof : eof.isEof = true)
    {t : Token}
    {rest : List Token}
    (hTokens : ∀ s ∈ t :: rest, s.isEof = false)
    {r : Reading Stmt}
    (hRead : r.Accounted (t :: rest)) :
    (r.recovered eof).Accounted (t :: rest) := by
  rcases hRead with ⟨used, hSplit, hUsed, hEnds⟩
  cases r with
  | done s reports left =>
      exact ⟨used, hSplit, hUsed, Or.inl hEnds⟩
  | failed cause reports unread =>
      cases unread with
      | nil =>
          have hAtEnd := hUsed.append (.of_end hEof cause)
          rw [List.append_nil] at hAtEnd
          have hCount : endReports [⟨eof, cause⟩] = 1 := by
            simp [endReports, hEof]
          refine
            ⟨used, hSplit, hAtEnd,
              Or.inr ⟨List.cons_ne_nil t rest, rfl, ?_⟩⟩
          simp only [Reading.recovered, List.headD_nil,
            endReports_append, hCount]
          rcases hEnds with hNone | ⟨_, hLe⟩ <;> omega
      | cons u unread =>
          have hNone : endReports reports = 0 :=
            hEnds.resolve_right fun hAtEnd =>
              List.cons_ne_nil u unread hAtEnd.1
          have hInside : u.isEof = false := by
            apply hTokens
            rw [hSplit]
            exact
              List.mem_append_right _ (List.mem_cons_self ..)
          rcases skipPast_isSuffix u unread with
            ⟨skipped, hSkipped⟩
          refine
            ⟨used ++ u :: skipped, ?_,
              hUsed.append (.of_failure u skipped cause),
              Or.inl ?_⟩
          · rw [hSplit, List.append_assoc,
              List.cons_append]
            exact
              congrArg (fun left => used ++ u :: left)
                hSkipped.symm
          · have hHere : endReports [⟨u, cause⟩] = 0 := by
              simp [endReports, hInside]
            simp only [Reading.recovered, List.headD_cons,
              endReports_append, hNone, hHere]

/- Declarations account one after the other. -/
theorem accounted_cons
    {t : Token}
    {rest : List Token}
    {first : Recovered Stmt}
    (hFirst : first.Accounted (t :: rest))
    {others : Recovered (List Stmt)}
    (hOthers : others.Accounted first.rest) :
    Recovered.Accounted (t :: rest)
      ⟨first.value :: others.value,
        first.reports ++ others.reports, others.rest⟩ := by
  rcases hFirst with ⟨front, hSplit, hFront, hEndFirst⟩
  rcases hOthers with ⟨back, hRest, hBack, hEndOthers⟩
  refine
    ⟨front ++ back, ?_, hFront.append hBack, ?_⟩
  · rw [hSplit, hRest, List.append_assoc]
  · rw [endReports_append, openings_append]
    rcases hEndFirst with hNone | ⟨_, hNil, hLe⟩
    · rw [hNone, Nat.zero_add]
      refine hEndOthers.imp_right ?_
      rintro ⟨_, hNil, hLe⟩
      exact ⟨List.cons_ne_nil t rest, hNil, by omega⟩
    · -- Nothing is left for the others to report.
      have hNone : endReports others.reports = 0 :=
        hEndOthers.resolve_right fun h => h.1 hNil
      rw [hNil] at hRest
      have hNil := (List.nil_eq_append_iff.mp hRest).2
      refine
        Or.inr ⟨List.cons_ne_nil t rest, hNil, ?_⟩
      omega

/- The branches of a condition account together. -/
theorem branchesRest_accounted
    (test : Expr)
    (thenBranch : Stmt)
    {rest : List Token}
    (hElse :
      ∀ t after,
        rest = t :: after →
        (statement eof after).val.Accounted after) :
    (branchesRest eof test thenBranch rest).Accounted
      rest := by
  cases rest with
  | nil =>
      exact .done _ []
  | cons t after =>
      rw [branchesRest]
      split
      · exact ((hElse t after rfl).map _).past t
      · exact .done _ (t :: after)

/- A block accounts for its declarations and its braces. -/
theorem block_accounted
    {t : Token}
    (hBrace : t.isSymbol .leftBrace = true)
    {rest : List Token}
    {body : Recovered (List Stmt)}
    (hBody : body.Accounted rest) :
    (((BoundedReading.expect (.symbol .rightBrace)
      .closingBrace body.rest).val.map fun _ =>
        Stmt.block body.value).after
          body.reports).Accounted (t :: rest) := by
  rcases hBody with ⟨used, hRest, hUsed, hEnds⟩
  have hOpened := (Accounts.silent [t]).append hUsed
  rcases BoundedReading.val_expect_cases
      (.symbol .rightBrace) .closingBrace body.rest with
    ⟨brace, left, hLeft, hClose⟩ | hClose
  · have hClosed := hOpened.append (.silent [brace])
    have hNone : endReports body.reports = 0 := by
      apply hEnds.resolve_right
      rintro ⟨_, hNil, _⟩
      rw [hLeft] at hNil
      cases hNil
    rw [hClose]
    refine ⟨t :: used ++ [brace], ?_, hClosed, ?_⟩
    · simp [Reading.after, Reading.rest, hRest, hLeft]
    · simpa [Reading.EndsWithin, Reading.after] using hNone
  · rw [hClose]
    refine ⟨t :: used, ?_, ?_, ?_⟩
    · simp [Reading.after, Reading.rest, hRest]
    · simpa [Reading.after, Reading.reports] using hOpened
    · have hCount :
          openings (t :: used) = openings used + 1 := by
        simp [openings, hBrace]
      rcases hEnds with hNone | ⟨_, hNil, hLe⟩
      · exact Or.inl (by simpa using hNone)
      · refine Or.inr ⟨hNil, ?_⟩
        rw [hCount]
        simpa using hLe

/-
  Every step of the parser accounts for its reports, unless
  the end is marked too early.
-/
theorem traversal_accounted
    (hEof : eof.isEof = true) :
    Traversal eof
      (fun tokens r =>
        (∀ t ∈ tokens, t.isEof = false) →
        r.Accounted tokens)
      (fun tokens body =>
        (∀ t ∈ tokens, t.isEof = false) →
        body.Accounted tokens) where
  simple := by
    intro tokens r hTargets _ _
    exact .of_onlyTargets hTargets
  behind := by
    intro tokens r next hTargets hNext hTokens
    have hFirst : r.Accounted tokens :=
      .of_onlyTargets hTargets
    apply hFirst.andThen
    rintro test reports rest rfl
    apply hNext test reports rest rfl
    intro t hMem
    exact hFirst.isEof_of_mem_rest hTokens hMem
  branches := by
    intro tokens test r hThen hElse hTokens
    have hFirst := hThen hTokens
    apply hFirst.andThen
    rintro thenBranch reports rest rfl
    apply branchesRest_accounted
    rintro t after rfl
    apply hElse thenBranch reports t after rfl
    intro s hMem
    exact
      hFirst.isEof_of_mem_rest hTokens
        (List.mem_cons_of_mem t hMem)
  loop := by
    intro tokens test r hBody hTokens
    exact (hBody hTokens).map _
  block := by
    intro t rest body hBrace hBody hTokens
    exact
      block_accounted hBrace
        (hBody (List.forall_mem_cons.mp hTokens).2)
  stop := by
    intro tokens _
    exact ⟨[], rfl, .silent [], Or.inl rfl⟩
  item := by
    intro t rest r others hFirst hOthers hTokens
    have hRecovered :=
      recovered_accounted hEof hTokens (hFirst hTokens)
    apply accounted_cons hRecovered
    apply hOthers
    rcases hRecovered with ⟨used, hSplit, _⟩
    rw [hSplit, List.forall_mem_append] at hTokens
    exact hTokens.2

end Parse

end OcScript

------------------------------------------------------------
-- Programs
------------------------------------------------------------

namespace OcScript

namespace Parsed

open Token (beforeEnd endMarker)

/- All errors of a program are accounted for by its tokens. -/
theorem accounts_errors
    (tokens : List Token) :
    Parse.Accounts (beforeEnd tokens)
        (ofTokens tokens).errors ∧
      Parse.endReports (ofTokens tokens).errors ≤
        Parse.openings (beforeEnd tokens) + 1 := by
  have hBody :=
    (Parse.traversal_accounted
      (Token.isEof_endMarker tokens)).body
        (beforeEnd tokens)
        (fun _ => Token.isEof_of_mem_beforeEnd)
  rcases hBody with ⟨used, hUsed, hAccounts, hEnds⟩
  rw [List.append_nil] at hUsed
  subst hUsed
  refine ⟨hAccounts, ?_⟩
  rcases hEnds with hNone | ⟨_, _, hLe⟩
  · exact (Nat.le_of_eq hNone).trans (Nat.zero_le _)
  · exact hLe

/- No other end marker than the first one is blamed. -/
theorem eq_endMarker_of_blamed
    {tokens : List Token}
    {t : Token}
    (hBlamed :
      t ∈ (ofTokens tokens).errors.map ParseError.token)
    (hEof : t.isEof = true) :
    t = endMarker tokens := by
  rcases List.mem_map.mp hBlamed with ⟨e, hError, rfl⟩
  rcases List.mem_append.mp
      (mem_of_mem_errors_ofBody hError) with
    hBody | hMarker
  · have hNot := Token.isEof_of_mem_beforeEnd hBody
    cases hNot.symm.trans hEof
  · exact List.mem_singleton.mp hMarker

/- A token is blamed no more often than it is written. -/
theorem count_blamed_le
    (tokens : List Token)
    {t : Token}
    (hInside : t.isEof = false) :
    ((ofTokens tokens).errors.map
      ParseError.token).count t ≤ tokens.count t :=
  calc
    ((ofTokens tokens).errors.map ParseError.token).count t
      = (Parse.blamedInside
          (ofTokens tokens).errors).count t :=
            (List.count_filter (by simp [hInside])).symm
    _ ≤ (beforeEnd tokens).count t :=
          (accounts_errors tokens).1.once.count_le t
    _ ≤ tokens.count t :=
          (List.takeWhile_sublist _).count_le t

/- The end is blamed for itself and for open blocks. -/
theorem count_endMarker_le
    (tokens : List Token) :
    ((ofTokens tokens).errors.map
        ParseError.token).count (endMarker tokens) ≤
      Parse.openings tokens + 1 := by
  have hMarker := Token.isEof_endMarker tokens
  have hBefore : (beforeEnd tokens).Sublist tokens :=
    List.takeWhile_sublist _
  calc
    ((ofTokens tokens).errors.map
        ParseError.token).count (endMarker tokens)
      ≤ Parse.endReports (ofTokens tokens).errors := by
          rw [List.count, List.countP_map]
          apply List.countP_mono_left
          intro e _ hSame
          simpa [eq_of_beq hSame] using hMarker
    _ ≤ Parse.openings (beforeEnd tokens) + 1 :=
          (accounts_errors tokens).2
    _ ≤ Parse.openings tokens + 1 :=
          Nat.add_le_add_right hBefore.countP_le 1

/-
  If the tokens of a program are distinct, then none before
  its end is blamed twice.  The end is blamed at most once
  more than there are blocks to close.  Failures are blamed
  on tokens in the order in which the tokens stand.
-/
theorem no_token_blamed_twice
    (tokens : List Token)
    (hDistinct : tokens.Nodup) :
    (∀ t,
      t ≠ endMarker tokens →
      ((ofTokens tokens).errors.map
        ParseError.token).count t ≤ 1) ∧
    ((ofTokens tokens).errors.map
        ParseError.token).count (endMarker tokens) ≤
      1 + tokens.countP (fun t =>
        t.kind = .symbol .leftBrace) ∧
    ((((ofTokens tokens).errors.filter fun e =>
        e.cause.message ≠
          "Invalid assignment target.").map
            ParseError.token).filter fun t =>
              !t.isEof).Sublist tokens := by
  refine ⟨?_, ?_, ?_⟩
  · intro t hOther
    cases hInside : t.isEof with
    | true =>
        have hUnblamed :
            t ∉ (ofTokens tokens).errors.map
              ParseError.token :=
          fun hBlamed =>
            hOther (eq_endMarker_of_blamed hBlamed hInside)
        rw [List.count_eq_zero.mpr hUnblamed]
        exact Nat.zero_le 1
    | false =>
        have hOnce := List.nodup_iff_count.mp hDistinct t
        exact (count_blamed_le tokens hInside).trans hOnce
  · rw [Nat.add_comm]
    exact count_endMarker_le tokens
  · rw [ParseError.decide_message_ne]
    exact
      (accounts_errors tokens).1.inOrder.trans
        (List.takeWhile_sublist _)

/-
  Blocks that are never closed.  A chain of wrong targets
  stands in the inner one, before a failure and a statement
  that ends too early.
-/
def openBlocks : List Token :=
  [⟨.symbol .leftBrace, "\x7b", 1⟩,
    ⟨.symbol .leftBrace, "\x7b", 2⟩,
    ⟨.keyword .nilWord, "nul", 2⟩,
    ⟨.symbol .equal, "=", 2⟩,
    ⟨.keyword .trueWord, "verai", 2⟩,
    ⟨.symbol .equal, "=", 3⟩,
    ⟨.identifier, "a", 3⟩,
    ⟨.symbol .semicolon, ";", 3⟩,
    ⟨.symbol .rightParen, ")", 4⟩,
    ⟨.symbol .semicolon, ";", 4⟩,
    ⟨.keyword .printWord, "est", 4⟩,
    Token.atEnd 4]

theorem no_token_blamed_twice_openBlocks :
    openBlocks.Nodup ∧
    (ofTokens openBlocks).errors =
      [⟨⟨.symbol .equal, "=", 3⟩, .assignmentTarget⟩,
        ⟨⟨.symbol .equal, "=", 2⟩, .assignmentTarget⟩,
        ⟨⟨.symbol .rightParen, ")", 4⟩, .expression⟩,
        ⟨Token.atEnd 4, .expression⟩,
        ⟨Token.atEnd 4, .closingBrace⟩,
        ⟨Token.atEnd 4, .closingBrace⟩] ∧
    ((ofTokens openBlocks).errors.map
        ParseError.token).count (Token.atEnd 4) = 3 ∧
    3 ≤ 1 + openBlocks.countP (fun t =>
      t.kind = .symbol .leftBrace) := by
  have hDistinct : openBlocks.Nodup := by
    decide +kernel
  have hErrors :
      (ofTokens openBlocks).errors =
        [⟨⟨.symbol .equal, "=", 3⟩, .assignmentTarget⟩,
          ⟨⟨.symbol .equal, "=", 2⟩, .assignmentTarget⟩,
          ⟨⟨.symbol .rightParen, ")", 4⟩, .expression⟩,
          ⟨Token.atEnd 4, .expression⟩,
          ⟨Token.atEnd 4, .closingBrace⟩,
          ⟨Token.atEnd 4, .closingBrace⟩] := by
    decide +kernel
  have hCount :
      ((ofTokens openBlocks).errors.map
        ParseError.token).count (Token.atEnd 4) = 3 := by
    rw [hErrors]
    decide
  have hBound :=
    (no_token_blamed_twice openBlocks hDistinct).2.1
  rw [show endMarker openBlocks = Token.atEnd 4 from rfl,
    hCount] at hBound
  exact ⟨hDistinct, hErrors, hCount, hBound⟩

end Parsed

end OcScript
