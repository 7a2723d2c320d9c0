import OcScript.Proofs.Parse.WrittenForm

/-
  This file shows that the parser is sound: a program read
  without reports is canonical, and writing it gives back
  the tokens it was read from.

  Expressions are followed level by level, each with the
  rank it can read; statements also carry what cannot come
  after them, since an else after a condition would have
  been read with it.

  Key definitions include:
    * `OcScript.Level.rank`
    * `OcScript.Parse.Sound`
    * `OcScript.Parse.SoundStatement`

  Key theorems include:
    * `OcScript.Parse.LoopRun.sound`
    * `OcScript.Parse.expression_sound`
    * `OcScript.Parse.statement_sound`
    * `OcScript.Parsed.ofTokens_sound`
-/

------------------------------------------------------------
-- Levels and Ranks
------------------------------------------------------------

namespace OcScript

namespace Level

/- The rank of the chains at a level. -/
def rank : Level → Rank
| disjunction => .disjunction
| conjunction => .conjunction
| equality => .equality
| comparison => .comparison
| sum => .comparison
| product => .comparison

theorem slots_combine
    (level : Level)
    (left : Expr)
    (operator : Token)
    (right : Expr) :
    (level.combine left operator right).slots =
      left.slots ++ .kept operator :: right.slots := by
  cases level <;> rfl

/-
  A loose level joins operands into an expression of its own
  rank.
-/
theorem canonical_combine
    {level : Level}
    (hLoose : level.isTight = false)
    {left right : Expr}
    {operator : Token}
    (hAccepts : level.accepts operator = true)
    (hLeft : left.Canonical ∧ left.rank ≤ level.rank)
    (hRight :
      right.Canonical ∧
        right.rank ≤ level.operandLevel.rank) :
    (level.combine left operator right).Canonical ∧
      (level.combine left operator right).rank ≤
        level.rank := by
  rcases hLeft with ⟨hLeft, hLeftRank⟩
  rcases hRight with ⟨hRight, hRightRank⟩
  cases level with
  | comparison => cases hLoose
  | sum => cases hLoose
  | product => cases hLoose
  | equality =>
      refine
        ⟨⟨Or.inr ⟨hAccepts, hLeftRank⟩, hRightRank, hLeft,
          hRight⟩, ?_⟩
      simp only [combine, Expr.rank, hAccepts, if_true]
      exact Rank.le_refl _
  | conjunction =>
      refine
        ⟨⟨Or.inl ⟨hAccepts, hLeftRank, hRightRank⟩, hLeft,
          hRight⟩, ?_⟩
      simp only [combine, Expr.rank, hAccepts, if_true]
      exact Rank.le_refl _
  | disjunction =>
      refine
        ⟨⟨Or.inr ⟨hAccepts, hLeftRank, hRightRank⟩, hLeft,
          hRight⟩, ?_⟩
      simp only [combine, Expr.rank]
      split <;> decide

end Level

end OcScript

------------------------------------------------------------
-- Sound Readings
------------------------------------------------------------

namespace OcScript

namespace Parse

/-
  What a reading of tokens gives without reports is a
  canonical expression of at most the given rank, and the
  tokens it took write that expression.
-/
def Sound
    (rank : Rank)
    (tokens : List Token)
    (r : Reading Expr) : Prop :=
  ∀ value rest,
    r = .done value [] rest →
    ∃ used,
      tokens = used ++ rest ∧
        Writes value.slots used ∧
        value.Canonical ∧ value.rank ≤ rank

/- A token that is read alone writes what is read. -/
theorem atom_sound
    {t : Token}
    {atom : Expr}
    (hAtom : atom? t = some atom) :
    Writes atom.slots [t] ∧
      atom.Canonical ∧ atom.rank ≤ .primary := by
  rcases t with ⟨kind, lexeme, line⟩
  unfold atom? at hAtom
  split at hAtom <;> cases hAtom <;>
    rename_i hKind <;> cases hKind <;>
    exact ⟨.cons rfl .nil, by trivial, Rank.le_refl _⟩

/-
  A run of a loose loop writes the operators and operands it
  reads after those it started from.
-/
theorem LoopRun.sound
    {level : Level}
    (hLoose : level.isTight = false)
    {turns : Nat}
    {left value : Expr}
    {tokens rest : List Token}
    {reports : List ParseError}
    (hRun :
      LoopRun level turns left tokens value reports rest)
    (hOperands :
      ∀ shorter : List Token,
        shorter.length < tokens.length →
        Sound level.operandLevel.rank shorter
          (chain level.operandLevel shorter).val)
    (hReports : reports = [])
    (hLeft : left.Canonical ∧ left.rank ≤ level.rank) :
    (value.Canonical ∧ value.rank ≤ level.rank) ∧
      ∃ slots used,
        value.slots = left.slots ++ slots ∧
          tokens = used ++ rest ∧ Writes slots used := by
  induction hRun with
  | stop hStops =>
      exact ⟨hLeft, [], [], by simp, rfl, .nil⟩
  | @turn turns left right value operator operand middle
      rest earlier later hAccepts hOperand hRun ih =>
      rcases List.append_eq_nil_iff.mp hReports with
        ⟨rfl, rfl⟩
      rcases hOperands operand (by simp) right middle
          hOperand with
        ⟨front, rfl, hFront, hRight⟩
      have hShorter :
          ∀ shorter : List Token,
            shorter.length < middle.length →
            Sound level.operandLevel.rank shorter
              (chain level.operandLevel shorter).val := by
        intro shorter hLength
        apply hOperands
        simp only [List.length_cons, List.length_append]
        omega
      have hJoined :=
        Level.canonical_combine hLoose hAccepts hLeft hRight
      rcases ih hShorter rfl hJoined with
        ⟨hValue, slots, back, hSlots, rfl, hBack⟩
      refine
        ⟨hValue, .kept operator :: (right.slots ++ slots),
          operator :: (front ++ back), ?_, by simp, ?_⟩
      · rw [hSlots, Level.slots_combine]
        simp
      · exact .cons rfl (hFront.append hBack)

/- A loose chain is sound if its operands are. -/
theorem chain_sound
    {level : Level}
    (hLoose : level.isTight = false)
    {tokens : List Token}
    {below : Rank}
    (hFirst :
      Sound below tokens (firstOperand level tokens))
    (hBelow : below ≤ level.rank)
    (hOperands :
      ∀ shorter : List Token,
        shorter.length < tokens.length →
        Sound level.operandLevel.rank shorter
          (chain level.operandLevel shorter).val) :
    Sound level.rank tokens (chain level tokens).val := by
  intro value rest hDone
  rw [val_chain] at hDone
  rcases Reading.andThen_eq_clean_iff.mp hDone with
    ⟨left, middle, hLeft, hLoop⟩
  rcases hFirst left middle hLeft with
    ⟨front, rfl, hFront, hCanonical, hRank⟩
  rcases chainRest_eq_done_iff.mp hLoop with ⟨turns, hRun⟩
  have hLater :
      ∀ shorter : List Token,
        shorter.length < middle.length →
        Sound level.operandLevel.rank shorter
          (chain level.operandLevel shorter).val := by
    intro shorter hShorter
    apply hOperands
    simp only [List.length_append]
    omega
  have hStart : left.Canonical ∧ left.rank ≤ level.rank :=
    ⟨hCanonical, Rank.le_trans hRank hBelow⟩
  rcases hRun.sound hLoose hLater rfl hStart with
    ⟨hValue, slots, back, hSlots, rfl, hBack⟩
  refine ⟨front ++ back, by simp, ?_, hValue⟩
  rw [hSlots]
  exact hFront.append hBack

end Parse

end OcScript

------------------------------------------------------------
-- Expressions
------------------------------------------------------------

namespace OcScript

namespace Parse

/- Every way to read an expression from tokens is sound. -/
structure SoundExpression
    (tokens : List Token) : Prop where
  primary : Sound .primary tokens (primary tokens).val
  comparison :
    Sound .comparison tokens (chain .comparison tokens).val
  equality :
    Sound .equality tokens (chain .equality tokens).val
  conjunction :
    Sound .conjunction tokens
      (chain .conjunction tokens).val
  disjunction :
    Sound .disjunction tokens
      (chain .disjunction tokens).val
  assignment :
    Sound .assignment tokens (assignment tokens).val

theorem primary_sound
    {tokens : List Token}
    (hShorter :
      ∀ shorter : List Token,
        shorter.length < tokens.length →
        Sound .assignment shorter (assignment shorter).val) :
    Sound .primary tokens (primary tokens).val := by
  intro value rest hDone
  cases tokens with
  | nil =>
      exact absurd (BoundedReading.length_rest_lt hDone)
        (Nat.not_lt_zero _)
  | cons t others =>
      cases hAtom : atom? t with
      | some atom =>
          rw [val_primary_atom hAtom] at hDone
          cases hDone
          exact ⟨[t], rfl, atom_sound hAtom⟩
      | none =>
          rw [val_primary_of_not_atom hAtom] at hDone
          split at hDone
          · rename_i hOpen
            rcases Reading.andThen_eq_clean_iff.mp hDone
                with
              ⟨inner, middle, hInner, hEnd⟩
            rcases Reading.map_eq_done_iff.mp hEnd with
              ⟨close, hClose, rfl⟩
            rcases BoundedReading.val_expect_eq_done_iff.mp
                hClose with
              ⟨rfl, hKind, _⟩
            rcases hShorter others (by simp) inner _ hInner
                with
              ⟨used, rfl, hUsed, hCanonical, _⟩
            have hWrites := hUsed.append (.symbol hKind)
            exact
              ⟨t :: (used ++ [close]), by simp,
                .cons (Token.isSymbol_iff.mp hOpen) hWrites,
                hCanonical, Rank.le_refl _⟩
          · cases hDone

theorem comparison_sound
    {tokens : List Token}
    (hPrimary : Sound .primary tokens (primary tokens).val)
    (hShorter :
      ∀ shorter : List Token,
        shorter.length < tokens.length →
        Sound .comparison shorter
          (chain .comparison shorter).val) :
    Sound .comparison tokens
      (chain .comparison tokens).val := by
  intro value rest hDone
  cases tokens with
  | nil =>
      exact absurd (BoundedReading.length_rest_lt hDone)
        (Nat.not_lt_zero _)
  | cons t others =>
      rw [val_comparison_cons] at hDone
      split at hDone
      · rename_i hUnary
        rcases Reading.map_eq_done_iff.mp hDone with
          ⟨operand, hOperand, rfl⟩
        rcases hShorter others (by simp) operand rest
            hOperand with
          ⟨used, rfl, hUsed, hCanonical, hRank⟩
        exact
          ⟨t :: used, rfl, .cons rfl hUsed,
            ⟨hUnary, hRank, hCanonical⟩, Rank.le_refl _⟩
      · rcases Reading.andThen_eq_clean_iff.mp hDone with
          ⟨left, middle, hLeft, hRest⟩
        have hLength := BoundedReading.length_rest_lt hLeft
        rcases hPrimary left middle hLeft with
          ⟨front, hFront, hWrites, hCanonical, hRank⟩
        cases middle with
        | nil =>
            cases hRest
            exact
              ⟨front, hFront, hWrites, hCanonical,
                Rank.le_trans hRank (by decide)⟩
        | cons operator operand =>
            rw [comparisonRest] at hRest
            split at hRest
            · rename_i hTight
              rcases Reading.map_eq_done_iff.mp hRest with
                ⟨right, hRight, rfl⟩
              rcases hShorter operand (Nat.lt_of_succ_lt
                  hLength) right rest hRight with
                ⟨back, rfl, hBack, hRight⟩
              have hRefuses :
                  Level.equality.accepts operator = false :=
                accepts_eq_false_of_isTightOperator rfl hTight
              refine
                ⟨front ++ operator :: back, by simp [hFront],
                  hWrites.append (.cons rfl hBack),
                  ⟨Or.inl ⟨hTight, hRank⟩, hRight.2,
                    hCanonical, hRight.1⟩, ?_⟩
              simp only [Expr.rank, hRefuses]
              exact Rank.le_refl _
            · cases hRest
              exact
                ⟨front, hFront, hWrites, hCanonical,
                  Rank.le_trans hRank (by decide)⟩

theorem assignment_sound
    {tokens : List Token}
    (hDisjunction :
      Sound .disjunction tokens
        (chain .disjunction tokens).val)
    (hShorter :
      ∀ shorter : List Token,
        shorter.length < tokens.length →
        Sound .assignment shorter (assignment shorter).val) :
    Sound .assignment tokens (assignment tokens).val := by
  intro value rest hDone
  rw [val_assignment] at hDone
  rcases Reading.andThen_eq_clean_iff.mp hDone with
    ⟨left, middle, hLeft, hRest⟩
  have hLength := BoundedReading.length_rest_lt hLeft
  rcases hDisjunction left middle hLeft with
    ⟨front, hFront, hWrites, hCanonical, hRank⟩
  have hLoose : left.rank ≤ .assignment :=
    Rank.le_trans hRank (by decide)
  cases middle with
  | nil =>
      cases hRest
      exact ⟨front, hFront, hWrites, hCanonical, hLoose⟩
  | cons equals others =>
      rw [assignmentRest] at hRest
      split at hRest
      · rename_i hEqual
        rcases Reading.andThen_eq_clean_iff.mp hRest with
          ⟨assigned, back, hValue, hTarget⟩
        rcases hShorter others (Nat.lt_of_succ_lt hLength)
            assigned back hValue with
          ⟨used, rfl, hUsed, hAssigned, _⟩
        -- Only a name is assigned to without a report.
        cases left with
        | var name =>
            cases hTarget
            rcases hWrites.uncons with
              ⟨nameToken, _, rfl, hName, hNil⟩
            cases hNil
            have hEquals := Token.isSymbol_iff.mp hEqual
            exact
              ⟨nameToken :: equals :: used, by simp [hFront],
                .cons hName (.cons hEquals hUsed),
                ⟨hCanonical, hAssigned⟩, Rank.le_refl _⟩
        | _ => simp [assignTo] at hTarget
      · cases hRest
        exact ⟨front, hFront, hWrites, hCanonical, hLoose⟩

/- Expressions are read soundly from any tokens. -/
theorem expression_sound
    (tokens : List Token) :
    SoundExpression tokens := by
  induction tokens using length_induction with
  | step tokens ih =>
      have hPrimary :=
        primary_sound fun shorter hShorter =>
          (ih shorter hShorter).assignment
      have hComparison :=
        comparison_sound hPrimary fun shorter hShorter =>
          (ih shorter hShorter).comparison
      have hEquality :
          Sound .equality tokens
            (chain .equality tokens).val :=
        chain_sound rfl hComparison (by decide)
          fun shorter hShorter =>
            (ih shorter hShorter).comparison
      have hConjunction :
          Sound .conjunction tokens
            (chain .conjunction tokens).val :=
        chain_sound rfl hEquality (by decide)
          fun shorter hShorter =>
            (ih shorter hShorter).equality
      have hDisjunction :
          Sound .disjunction tokens
            (chain .disjunction tokens).val :=
        chain_sound rfl hConjunction (by decide)
          fun shorter hShorter =>
            (ih shorter hShorter).conjunction
      exact
        { primary := hPrimary
          comparison := hComparison
          equality := hEquality
          conjunction := hConjunction
          disjunction := hDisjunction
          assignment :=
            assignment_sound hDisjunction
              fun shorter hShorter =>
                (ih shorter hShorter).assignment }

end Parse

end OcScript

------------------------------------------------------------
-- Parts of Statements
------------------------------------------------------------

namespace OcScript

namespace Parse

theorem closedExpression_sound
    {cause : ParseCause}
    {tokens rest : List Token}
    {value : Expr}
    (hDone :
      (closedExpression cause tokens).val =
        .done value [] rest) :
    ∃ used,
      tokens = used ++ rest ∧
        Writes (value.slots ++ [.symbol .semicolon]) used ∧
        value.Canonical := by
  rw [val_closedExpression] at hDone
  rcases Reading.andThen_eq_clean_iff.mp hDone with
    ⟨first, middle, hFirst, hEnd⟩
  rcases Reading.map_eq_done_iff.mp hEnd with
    ⟨semicolon, hSemicolon, rfl⟩
  rcases BoundedReading.val_expect_eq_done_iff.mp hSemicolon
      with
    ⟨rfl, hKind, _⟩
  rcases (expression_sound tokens).assignment first _ hFirst
      with
    ⟨used, rfl, hUsed, hCanonical, _⟩
  exact
    ⟨used ++ [semicolon], by simp,
      hUsed.append (.symbol hKind), hCanonical⟩

theorem condition_sound
    {keyword : Token}
    {unclosed : ParseCause}
    {tokens rest : List Token}
    {value : Expr}
    (hDone :
      (condition keyword unclosed tokens).val =
        .done value [] rest) :
    ∃ used,
      tokens = used ++ rest ∧
        Writes (Stmt.conditionSlots value) used ∧
        value.Canonical := by
  rw [val_condition] at hDone
  rcases Reading.andThen_eq_clean_iff.mp hDone with
    ⟨openParen, inside, hOpen, hInside⟩
  rcases BoundedReading.val_expect_eq_done_iff.mp hOpen with
    ⟨rfl, hOpenKind, _⟩
  rcases Reading.andThen_eq_clean_iff.mp hInside with
    ⟨first, middle, hFirst, hEnd⟩
  rcases Reading.map_eq_done_iff.mp hEnd with
    ⟨closeParen, hClose, rfl⟩
  rcases BoundedReading.val_expect_eq_done_iff.mp hClose
      with
    ⟨rfl, hCloseKind, _⟩
  rcases (expression_sound inside).assignment first _ hFirst
      with
    ⟨used, rfl, hUsed, hCanonical, _⟩
  exact
    ⟨openParen :: (used ++ [closeParen]), by simp,
      .cons hOpenKind (hUsed.append (.symbol hCloseKind)),
      hCanonical⟩

/- A declaration read after its keyword is written by both. -/
theorem variableDeclaration_sound
    {tokens rest : List Token}
    {value : Stmt}
    (hDone :
      (variableDeclaration tokens).val =
        .done value [] rest) :
    ∃ used,
      tokens = used ++ rest ∧
        value.Canonical ∧
        ∀ keyword : Token,
          keyword.kind = .keyword .varWord →
          Writes value.slots (keyword :: used) := by
  rw [val_variableDeclaration] at hDone
  rcases Reading.andThen_eq_clean_iff.mp hDone with
    ⟨name, middle, hName, hEnd⟩
  rcases BoundedReading.val_expect_eq_done_iff.mp hName with
    ⟨rfl, hIdentifier, _⟩
  rcases Reading.map_eq_done_iff.mp hEnd with
    ⟨initial, hInitial, rfl⟩
  cases middle with
  | nil =>
      exact absurd (BoundedReading.length_rest_lt hInitial)
        (Nat.not_lt_zero _)
  | cons t others =>
      rw [val_initializer_cons] at hInitial
      split at hInitial
      · rename_i hEqual
        rcases Reading.map_eq_done_iff.mp hInitial with
          ⟨value, hValue, rfl⟩
        rcases closedExpression_sound hValue with
          ⟨used, rfl, hUsed, hCanonical⟩
        refine
          ⟨name :: t :: used, rfl,
            ⟨hIdentifier, hCanonical⟩, ?_⟩
        intro keyword hKeyword
        have hEquals := Token.isSymbol_iff.mp hEqual
        exact
          .cons hKeyword (.cons rfl (.cons hEquals hUsed))
      · rcases Reading.map_eq_done_iff.mp hInitial with
          ⟨semicolon, hSemicolon, rfl⟩
        rcases BoundedReading.val_expect_eq_done_iff.mp
            hSemicolon with
          ⟨hTokens, hKind, _⟩
        cases hTokens
        refine ⟨[name, t], rfl, hIdentifier, ?_⟩
        intro keyword hKeyword
        exact .cons hKeyword (.cons rfl (Writes.symbol hKind))

end Parse

end OcScript

------------------------------------------------------------
-- Statements
------------------------------------------------------------

namespace OcScript

namespace Parse

/- The token is an else. -/
def isElse
    (t : Token) :
    Bool :=
  t.isKeyword .elseWord

/-
  What a reading of tokens gives without reports is a
  canonical statement, and the tokens it took write it.  If
  the statement ends in an open condition, no else follows.
-/
def SoundStatement
    (tokens : List Token)
    (r : Reading Stmt) : Prop :=
  ∀ value rest,
    r = .done value [] rest →
    ∃ used,
      tokens = used ++ rest ∧
        Writes value.slots used ∧
        (value.Canonical ∧ value.isDeclaration = false) ∧
        (value.endsOpen = true → Stops isElse rest)

/-
  What is kept of tokens without reports is a list of
  canonical statements, which the tokens taken write.
-/
def SoundItems
    (tokens : List Token)
    (d : Recovered (List Stmt)) : Prop :=
  d.reports = [] →
    ∃ used,
      tokens = used ++ d.rest ∧
        Writes (Stmt.slotsAll d.value) used ∧
        Stmt.CanonicalAll d.value

/-
  The tokens up to `rest` write the branches of a condition,
  after the keyword and the condition itself.
-/
def SoundBranches
    (test : Expr)
    (tokens : List Token)
    (value : Stmt)
    (rest : List Token) : Prop :=
  ∃ used,
    tokens = used ++ rest ∧
      (∀ keyword front,
        keyword.kind = .keyword .ifWord →
        Writes (Stmt.conditionSlots test) front →
        Writes value.slots (keyword :: (front ++ used))) ∧
      (value.Canonical ∧ value.isDeclaration = false) ∧
      (value.endsOpen = true → Stops isElse rest)

/-
  The branches of a condition are written after it.  A first
  branch that is followed by an else does not end in an open
  condition, which would have taken the else.
-/
theorem ifBranches_sound
    {eof : Token}
    {test : Expr}
    {tokens : List Token}
    (hTest : test.Canonical)
    (hStatement :
      ∀ shorter : List Token,
        shorter.length ≤ tokens.length →
        SoundStatement shorter (statement eof shorter).val)
    {value : Stmt}
    {rest : List Token}
    (hDone :
      (ifBranches eof test tokens).val =
        .done value [] rest) :
    SoundBranches test tokens value rest := by
  rw [val_ifBranches] at hDone
  rcases Reading.andThen_eq_clean_iff.mp hDone with
    ⟨thenBranch, middle, hThen, hRest⟩
  have hLength := BoundedReading.length_rest_lt hThen
  rcases hStatement tokens (Nat.le_refl _) thenBranch middle
      hThen with
    ⟨used, hUsed, hWrites, hCanonical, hOpen⟩
  have hNoElse :
      Stops isElse middle →
      SoundBranches test tokens (.ifThen test thenBranch)
        middle := by
    intro hStops
    refine
      ⟨used, hUsed, ?_, ⟨⟨hTest, hCanonical⟩, rfl⟩,
        fun _ => hStops⟩
    intro keyword front hKeyword hFront
    exact .cons hKeyword (hFront.append hWrites)
  cases middle with
  | nil =>
      cases hRest
      exact hNoElse (stops_nil _)
  | cons t others =>
      rw [branchesRest] at hRest
      split at hRest
      · rename_i hElse
        rcases Reading.map_eq_done_iff.mp hRest with
          ⟨elseBranch, hElseBranch, rfl⟩
        have hShorter : others.length ≤ tokens.length := by
          simp only [List.length_cons] at hLength
          omega
        rcases hStatement others hShorter elseBranch rest
            hElseBranch with
          ⟨back, rfl, hBack, hElseCanonical, hElseOpen⟩
        have hClosed : thenBranch.endsOpen = false := by
          by_contra hEnds
          have hStops := hOpen (by simpa using hEnds)
          rw [stops_cons, isElse, hElse] at hStops
          cases hStops
        refine
          ⟨used ++ t :: back, by simp [hUsed], ?_,
            ⟨⟨hTest, ⟨hCanonical.1, hCanonical.2, hClosed⟩,
              hElseCanonical⟩, rfl⟩, hElseOpen⟩
        intro keyword front hKeyword hFront
        have hElseKind := Token.isKeyword_iff.mp hElse
        exact
          .cons hKeyword
            (hFront.append
              (hWrites.append (.cons hElseKind hBack)))
      · rename_i hElse
        cases hRest
        exact hNoElse (by simpa [isElse] using hElse)

/-
  A statement is sound if shorter statements and shorter
  blocks are.
-/
theorem statement_sound_step
    {eof : Token}
    {tokens : List Token}
    (hStatement :
      ∀ shorter : List Token,
        shorter.length < tokens.length →
        SoundStatement shorter (statement eof shorter).val)
    (hItems :
      ∀ shorter : List Token,
        shorter.length < tokens.length →
        SoundItems shorter (items eof shorter).val) :
    SoundStatement tokens (statement eof tokens).val := by
  intro value rest hDone
  cases tokens with
  | nil =>
      exact absurd (BoundedReading.length_rest_lt hDone)
        (Nat.not_lt_zero _)
  | cons t others =>
      by_cases hIf : t.kind = .keyword .ifWord
      · rw [val_statement_if hIf] at hDone
        rcases Reading.andThen_eq_clean_iff.mp hDone with
          ⟨test, middle, hTest, hBranches⟩
        have hLength := BoundedReading.length_rest_lt hTest
        rcases condition_sound hTest with
          ⟨front, hOthers, hFront, hCanonical⟩
        rcases ifBranches_sound hCanonical (fun shorter
            hShorter => hStatement shorter (by simp; omega))
            hBranches with
          ⟨back, rfl, hWrites, hValue⟩
        exact
          ⟨t :: (front ++ back), by simp [hOthers],
            hWrites t front hIf hFront, hValue⟩
      by_cases hPrint : t.kind = .keyword .printWord
      · rw [val_statement_print hPrint] at hDone
        rcases Reading.map_eq_done_iff.mp hDone with
          ⟨printed, hPrinted, rfl⟩
        rcases closedExpression_sound hPrinted with
          ⟨used, rfl, hUsed, hCanonical⟩
        exact
          ⟨t :: used, rfl, .cons rfl hUsed,
            ⟨⟨hPrint, hCanonical⟩, rfl⟩,
            fun hOpen => Bool.noConfusion hOpen⟩
      by_cases hWhile : t.kind = .keyword .whileWord
      · rw [val_statement_while hWhile] at hDone
        rcases Reading.andThen_eq_clean_iff.mp hDone with
          ⟨test, middle, hTest, hEnd⟩
        have hLength := BoundedReading.length_rest_lt hTest
        rcases Reading.map_eq_done_iff.mp hEnd with
          ⟨body, hBody, rfl⟩
        rcases condition_sound hTest with
          ⟨front, hOthers, hFront, hCanonical⟩
        rcases hStatement middle (by simp; omega) body rest
            hBody with
          ⟨back, rfl, hBack, hBodyCanonical, hOpen⟩
        exact
          ⟨t :: (front ++ back), by simp [hOthers],
            .cons hWhile (hFront.append hBack),
            ⟨⟨hCanonical, hBodyCanonical⟩, rfl⟩, hOpen⟩
      by_cases hBrace : t.kind = .symbol .leftBrace
      · rw [val_statement_block hBrace] at hDone
        rcases Reading.after_eq_clean_iff.mp hDone with
          ⟨hReports, hEnd⟩
        rcases Reading.map_eq_done_iff.mp hEnd with
          ⟨close, hClose, rfl⟩
        rcases BoundedReading.val_expect_eq_done_iff.mp
            hClose with
          ⟨hRest, hKind, _⟩
        rcases hItems others (by simp) hReports with
          ⟨used, hOthers, hUsed, hCanonical⟩
        rw [hRest] at hOthers
        exact
          ⟨t :: (used ++ [close]), by simp [hOthers],
            .cons hBrace (hUsed.append (.symbol hKind)),
            ⟨hCanonical, rfl⟩,
            fun hOpen => Bool.noConfusion hOpen⟩
      have hOpens : opensStatement t = false := by
        simp [opensStatement, hIf, hPrint, hWhile, hBrace]
      rw [val_statement_expression hOpens] at hDone
      rcases Reading.map_eq_done_iff.mp hDone with
        ⟨expression, hExpression, rfl⟩
      rcases closedExpression_sound hExpression with
        ⟨used, hUsed, hWrites, hCanonical⟩
      exact
        ⟨used, hUsed, hWrites, ⟨hCanonical, rfl⟩,
          fun hOpen => Bool.noConfusion hOpen⟩

/- A declaration that reports nothing is sound. -/
theorem declaration_sound
    {eof t : Token}
    {others : List Token}
    (hStatement :
      SoundStatement (t :: others)
        (statement eof (t :: others)).val)
    (hClean :
      (declaration eof (t :: others)).val.reports = []) :
    ∃ used,
      t :: others =
          used ++ (declaration eof (t :: others)).val.rest ∧
        Writes
          (declaration eof (t :: others)).val.value.slots
          used ∧
        (declaration eof
          (t :: others)).val.value.Canonical := by
  rw [val_declaration_cons] at hClean ⊢
  split at hClean
  · rename_i hVar
    rw [if_pos hVar]
    rcases variableDeclaration_sound
        (Reading.recovered_clean hClean) with
      ⟨used, hOthers, hCanonical, hWrites⟩
    exact
      ⟨t :: used, by rw [List.cons_append, ← hOthers],
        hWrites t (Token.isKeyword_iff.mp hVar), hCanonical⟩
  · rename_i hVar
    rw [if_neg hVar]
    rcases hStatement _ _ (Reading.recovered_clean hClean)
        with
      ⟨used, hOthers, hWrites, ⟨hCanonical, _⟩, _⟩
    exact ⟨used, hOthers, hWrites, hCanonical⟩

theorem items_sound_step
    {eof : Token}
    {tokens : List Token}
    (hStatement :
      SoundStatement tokens (statement eof tokens).val)
    (hItems :
      ∀ shorter : List Token,
        shorter.length < tokens.length →
        SoundItems shorter (items eof shorter).val) :
    SoundItems tokens (items eof tokens).val := by
  cases tokens with
  | nil =>
      intro _
      rw [val_items_nil]
      exact ⟨[], rfl, .nil, trivial⟩
  | cons t others =>
      rw [val_items_cons]
      split
      · intro _
        exact ⟨[], rfl, .nil, trivial⟩
      · intro hClean
        rcases List.append_eq_nil_iff.mp hClean with
          ⟨hFirst, hOthers⟩
        have hLength :=
          (declaration eof (t :: others)).property
        rcases declaration_sound hStatement hFirst with
          ⟨front, hFront, hWrites, hCanonical⟩
        rcases hItems _ (Nat.lt_of_le_of_lt hLength (by
            simp)) hOthers with
          ⟨back, hBack, hRest, hAll⟩
        refine
          ⟨front ++ back, ?_, hWrites.append hRest,
            hCanonical, hAll⟩
        rw [List.append_assoc, ← hBack]
        exact hFront

/- Statements and lists of them are read soundly. -/
theorem statement_sound
    (eof : Token)
    (tokens : List Token) :
    SoundStatement tokens (statement eof tokens).val ∧
      SoundItems tokens (items eof tokens).val := by
  induction tokens using length_induction with
  | step tokens ih =>
      have hStatement :
          SoundStatement tokens (statement eof tokens).val :=
        statement_sound_step
          (fun shorter hShorter => (ih shorter hShorter).1)
          (fun shorter hShorter => (ih shorter hShorter).2)
      exact
        ⟨hStatement,
          items_sound_step hStatement
            fun shorter hShorter => (ih shorter hShorter).2⟩

end Parse

end OcScript

------------------------------------------------------------
-- Programs
------------------------------------------------------------

namespace OcScript

namespace Parsed

/- A body read without errors is a written program. -/
theorem ofBody_sound
    {eof : Token}
    {tokens : List Token}
    (hClean : (ofBody eof tokens).errors = []) :
    Stmt.CanonicalAll (ofBody eof tokens).program ∧
      Writes (Stmt.slotsAll (ofBody eof tokens).program)
        tokens := by
  induction tokens using Parse.length_induction with
  | step tokens ih =>
      cases tokens with
      | nil =>
          rw [ofBody_nil]
          exact ⟨trivial, .nil⟩
      | cons t others =>
          rw [ofBody_cons] at hClean ⊢
          rcases List.append_eq_nil_iff.mp hClean with
            ⟨hFirst, hOthers⟩
          have hLength :=
            (Parse.declaration eof (t :: others)).property
          rcases Parse.declaration_sound
              (Parse.statement_sound eof _).1 hFirst with
            ⟨front, hFront, hWrites, hCanonical⟩
          rcases ih _ (Nat.lt_of_le_of_lt hLength (by simp))
              hOthers with
            ⟨hAll, hRest⟩
          refine ⟨⟨hCanonical, hAll⟩, ?_⟩
          have hBoth := hWrites.append hRest
          rw [← hFront] at hBoth
          exact hBoth

/-
  The parser is sound.  If no error is reported, the program
  is canonical; the tokens before the end marker fill the
  slots of the written program, the kept tokens verbatim; so
  their kinds, with the values of literals, are those of the
  written program.
-/
theorem ofTokens_sound
    (tokens : List Token)
    (hClean : (ofTokens tokens).errors = []) :
    Stmt.CanonicalAll (ofTokens tokens).program ∧
      Writes (Stmt.slotsAll (ofTokens tokens).program)
        (tokens.takeWhile fun t => !t.isEof) ∧
      (tokens.takeWhile fun t => !t.isEof).map Token.kind =
        (Stmt.slotsAll (ofTokens tokens).program).map
          Slot.kind := by
  rcases ofBody_sound hClean with ⟨hCanonical, hWrites⟩
  exact ⟨hCanonical, hWrites, hWrites.kinds_eq⟩

/- Two conditions, one in the other, and a single else. -/
def nearestElse : List Token :=
  [⟨.keyword .ifWord, "se", 1⟩,
    ⟨.symbol .leftParen, "(", 1⟩,
    ⟨.identifier, "a", 1⟩,
    ⟨.symbol .rightParen, ")", 1⟩,
    ⟨.keyword .ifWord, "se", 2⟩,
    ⟨.symbol .leftParen, "(", 2⟩,
    ⟨.symbol .bang, "!", 2⟩,
    ⟨.identifier, "b", 2⟩,
    ⟨.symbol .equalEqual, "==", 2⟩,
    ⟨.keyword .nilWord, "nul", 2⟩,
    ⟨.symbol .rightParen, ")", 2⟩,
    ⟨.keyword .printWord, "est", 3⟩,
    ⟨.identifier, "a", 3⟩,
    ⟨.symbol .semicolon, ";", 3⟩,
    ⟨.keyword .elseWord, "senon", 4⟩,
    ⟨.identifier, "a", 4⟩,
    ⟨.symbol .equal, "=", 4⟩,
    ⟨.string "c", "\"c\"", 4⟩,
    ⟨.symbol .semicolon, ";", 4⟩]

theorem ofTokens_sound_nearestElse :
    (ofTokens (nearestElse ++ [Token.atEnd 4])).errors =
        [] ∧
      Stmt.CanonicalAll
        (ofTokens (nearestElse ++ [Token.atEnd 4])).program ∧
      Writes
        (Stmt.slotsAll
          (ofTokens
            (nearestElse ++ [Token.atEnd 4])).program)
        nearestElse := by
  have hClean :
      (ofTokens (nearestElse ++ [Token.atEnd 4])).errors =
        [] := by
    decide +kernel
  have hBody :
      (nearestElse ++ [Token.atEnd 4]).takeWhile
        (fun t => !t.isEof) = nearestElse := by
    decide
  rcases ofTokens_sound _ hClean with
    ⟨hCanonical, hWrites, _⟩
  rw [hBody] at hWrites
  exact ⟨hClean, hCanonical, hWrites⟩

end Parsed

end OcScript
