import OcScript.Proofs.Parse.Equations

/-
  This file shows that comparisons, sums, and products make
  up one flat level.

  The later operands at each of these levels are whole
  comparisons, and a whole comparison is never followed by
  one of the eight operators of these levels.  So no loop at
  these levels reads more than one operator, and the three
  levels together read what `Parse.flat` reads: operators
  that all bind alike and group to the right.

  Key definitions include:
    * `OcScript.Parse.isTightOperator`
    * `OcScript.Parse.flat`
    * `OcScript.Parse.LoopRun`

  Key theorems include:
    * `OcScript.Parse.chainRest_eq_done_iff`
    * `OcScript.Parse.stops_of_comparison`
    * `OcScript.Parse.val_comparison_cons`
    * `OcScript.Parse.comparison_reads_flat`
-/

------------------------------------------------------------
-- The Flat Level
------------------------------------------------------------

namespace OcScript

namespace Parse

open BoundedReading (done)

/- The operators of comparisons, sums, and products. -/
def isTightOperator
    (t : Token) :
    Bool :=
  t.kind ∈
    [TokenKind.symbol .plus, .symbol .minus, .symbol .star,
      .symbol .slash, .symbol .less, .symbol .lessEqual,
      .symbol .greater, .symbol .greaterEqual]

/-
  Read a comparison at one level: an operator and what it
  stands before, or a primary expression that one of the
  eight operators and another comparison may follow.
-/
def flat
    (tokens : List Token) :
    BoundedReading Expr tokens.length :=
  match tokens with
  | [] => primary []
  | t :: rest =>
      if isUnaryOperator t then
        ((flat rest).map (.unary t)).past t
      else
        (primary (t :: rest)).andThen fun left rest hRest =>
          match rest, hRest with
          | [], hRest => done left [] hRest
          | operator :: rest, hRest =>
              if isTightOperator operator then
                ((flat rest).map
                  (.binary left operator)).weaken
                    (Nat.le_of_lt (Nat.lt_of_succ_lt hRest))
              else
                done left (operator :: rest) hRest
termination_by tokens.length
decreasing_by
  · simp only [List.length_cons]
    omega
  · simp only [List.length_cons] at hRest ⊢
    omega

end Parse

end OcScript

------------------------------------------------------------
-- Runs of a Loop
------------------------------------------------------------

namespace OcScript

namespace Parse

/- The tokens do not start with one that `p` accepts. -/
def Stops
    (p : Token → Bool)
    (tokens : List Token) : Prop :=
  ∀ t ∈ tokens.head?, p t = false

@[simp] theorem stops_nil
    (p : Token → Bool) :
    Stops p [] := by
  simp [Stops]

@[simp] theorem stops_cons
    (p : Token → Bool)
    (t : Token)
    (rest : List Token) :
    Stops p (t :: rest) ↔ p t = false := by
  simp [Stops]

/-
  The loop at a level, with the operands so far joined to
  `left`, takes `turns` turns: in each it reads an operator
  and an operand.  It ends before a token that is not an
  operator of the level.
-/
inductive LoopRun (level : Level) :
    (turns : Nat) →
    (left : Expr) →
    (tokens : List Token) →
    (value : Expr) →
    (reports : List ParseError) →
    (rest : List Token) →
    Prop where
| stop
    {left : Expr}
    {tokens : List Token}
    (hStops : Stops level.accepts tokens) :
    LoopRun level 0 left tokens left [] tokens
| turn
    {turns : Nat}
    {left right value : Expr}
    {operator : Token}
    {tokens middle rest : List Token}
    {earlier later : List ParseError}
    (hAccepts : level.accepts operator = true)
    (hOperand :
      (chain level.operandLevel tokens).val =
        .done right earlier middle)
    (hRun :
      LoopRun level turns
        (level.combine left operator right) middle value
        later rest) :
    LoopRun level (turns + 1) left (operator :: tokens)
      value (earlier ++ later) rest

/- The loop stops before any token it does not accept. -/
theorem chainRest_of_stops
    {level : Level}
    {tokens : List Token}
    (hStops : Stops level.accepts tokens)
    (left : Expr) :
    (chainRest level left tokens).val =
      .done left [] tokens := by
  cases tokens with
  | nil =>
      exact val_chainRest_nil level left
  | cons t rest =>
      rw [stops_cons] at hStops
      simp [val_chainRest_cons, hStops]

/- A run of the loop gives what the loop reads. -/
theorem LoopRun.chainRest_eq
    {level : Level}
    {turns : Nat}
    {left value : Expr}
    {tokens rest : List Token}
    {reports : List ParseError}
    (hRun :
      LoopRun level turns left tokens value reports rest) :
    (chainRest level left tokens).val =
      .done value reports rest := by
  induction hRun with
  | stop hStops =>
      exact chainRest_of_stops hStops _
  | turn hAccepts hOperand hRun ih =>
      rw [val_chainRest_cons, if_pos hAccepts, hOperand,
        Reading.andThen_done, ih]
      rfl

/-
  The loop is done just if it has a run.  Each turn leaves
  fewer tokens, so the run is found by their number.
-/
theorem chainRest_eq_done_iff
    {level : Level}
    {left value : Expr}
    {tokens rest : List Token}
    {reports : List ParseError} :
    (chainRest level left tokens).val =
        .done value reports rest ↔
      ∃ turns,
        LoopRun level turns left tokens value reports
          rest := by
  constructor
  · intro hDone
    induction tokens using length_induction
      generalizing left reports with
    | step tokens ih =>
        cases tokens with
        | nil =>
            rw [val_chainRest_nil] at hDone
            cases hDone
            exact ⟨0, .stop (stops_nil _)⟩
        | cons t others =>
            rw [val_chainRest_cons] at hDone
            split at hDone
            · rename_i hAccepts
              rcases Reading.andThen_eq_done_iff.mp hDone
                  with
                ⟨right, earlier, middle, later, hOperand,
                  hNext, rfl⟩
              have hShorter :=
                BoundedReading.length_rest_lt hOperand
              rcases ih middle (Nat.lt_succ_of_lt hShorter)
                  hNext with
                ⟨turns, hRun⟩
              exact
                ⟨turns + 1, .turn hAccepts hOperand hRun⟩
            · rename_i hRefuses
              cases hDone
              refine ⟨0, .stop ?_⟩
              simpa using hRefuses
  · rintro ⟨turns, hRun⟩
    exact hRun.chainRest_eq

/- A loop stops where its level has no operator. -/
theorem LoopRun.stops
    {level : Level}
    {turns : Nat}
    {left value : Expr}
    {tokens rest : List Token}
    {reports : List ParseError}
    (hRun :
      LoopRun level turns left tokens value reports rest) :
    Stops level.accepts rest := by
  induction hRun with
  | stop hStops =>
      exact hStops
  | turn hAccepts hOperand hRun ih =>
      exact ih

/- A loop ends where it started or where an operand ends. -/
theorem LoopRun.rest_eq_or
    {level : Level}
    {turns : Nat}
    {left value : Expr}
    {tokens rest : List Token}
    {reports : List ParseError}
    (hRun :
      LoopRun level turns left tokens value reports rest) :
    rest = tokens ∨
      ∃ operand right earlier,
        operand.length < tokens.length ∧
          (chain level.operandLevel operand).val =
            .done right earlier rest := by
  induction hRun with
  | stop hStops =>
      exact Or.inl rfl
  | @turn _ _ right _ _ operand _ _ earlier _ _ hOperand
      hRun ih =>
      apply Or.inr
      rcases ih with rfl | ⟨last, lastRight, lastReports,
        hShorter, hLast⟩
      · exact
          ⟨operand, right, earlier, by simp, hOperand⟩
      · have hMiddle :=
          BoundedReading.length_rest_lt hOperand
        refine ⟨last, lastRight, lastReports, ?_, hLast⟩
        simp only [List.length_cons]
        omega

end Parse

end OcScript

------------------------------------------------------------
-- What Follows a Comparison
------------------------------------------------------------

namespace OcScript

namespace Level

/- The levels whose later operands are comparisons again. -/
def isTight : Level → Bool
| comparison => true
| sum => true
| product => true
| _ => false

theorem operandLevel_of_isTight
    {level : Level}
    (hTight : level.isTight = true) :
    level.operandLevel = .comparison := by
  cases level with
  | comparison => rfl
  | sum => rfl
  | product => rfl
  | _ => cases hTight

theorem combine_of_isTight
    {level : Level}
    (hTight : level.isTight = true)
    (left : Expr)
    (operator : Token)
    (right : Expr) :
    level.combine left operator right =
      .binary left operator right := by
  cases level with
  | comparison => rfl
  | sum => rfl
  | product => rfl
  | _ => cases hTight

end Level

namespace Parse

/- The eight operators are those of the three levels. -/
theorem isTightOperator_eq
    (t : Token) :
    isTightOperator t =
      (Level.comparison.accepts t || Level.sum.accepts t ||
        Level.product.accepts t) := by
  simp only [isTightOperator, Level.accepts,
    Level.operators]
  grind

theorem accepts_eq_false_of_isTight
    {level : Level}
    (hTight : level.isTight = true)
    {t : Token}
    (hRefuses : isTightOperator t = false) :
    level.accepts t = false := by
  rw [isTightOperator_eq] at hRefuses
  simp only [Bool.or_eq_false_iff] at hRefuses
  rcases hRefuses with ⟨⟨hComparison, hSum⟩, hProduct⟩
  cases level with
  | comparison => exact hComparison
  | sum => exact hSum
  | product => exact hProduct
  | _ => cases hTight

/- The other levels have none of the eight operators. -/
theorem accepts_eq_false_of_isTightOperator
    {level : Level}
    (hLoose : level.isTight = false)
    {t : Token}
    (hTight : isTightOperator t = true) :
    level.accepts t = false := by
  cases level <;> simp only [Level.isTight, reduceCtorEq]
    at hLoose
  all_goals
    simp only [Level.accepts, Level.operators,
      isTightOperator] at *
    grind

/- Where no tight operator stands, no tight loop goes on. -/
theorem Stops.of_tight
    {level : Level}
    (hTight : level.isTight = true)
    {tokens : List Token}
    (hStops : Stops isTightOperator tokens) :
    Stops level.accepts tokens :=
  fun t ht => accepts_eq_false_of_isTight hTight (hStops t ht)

/-
  After a comparison there is none of the eight operators.
  If one of the three loops took a turn, the comparison ends
  where a shorter one ends; if none did, each loop stopped
  at the same token, and so it is an operator of no level.
-/
theorem stops_of_comparison
    {tokens rest : List Token}
    {value : Expr}
    {reports : List ParseError}
    (hDone :
      (chain .comparison tokens).val =
        .done value reports rest) :
    Stops isTightOperator rest := by
  induction tokens using length_induction
    generalizing value reports rest with
  | step tokens ih =>
      have hLevel :
          ∀ level : Level,
            level.isTight = true →
            ∀ {value reports rest},
              (chain level tokens).val =
                  .done value reports rest →
              Stops isTightOperator rest ∨
                Stops level.accepts rest ∧
                  ∃ left earlier,
                    firstOperand level tokens =
                      .done left earlier rest := by
        intro level hTight value reports rest hDone
        rw [val_chain] at hDone
        rcases Reading.andThen_eq_done_iff.mp hDone with
          ⟨left, earlier, middle, later, hFirst, hLoop, rfl⟩
        rcases chainRest_eq_done_iff.mp hLoop with
          ⟨turns, hRun⟩
        rcases hRun.rest_eq_or with
          rfl | ⟨operand, right, reports, hShorter, hOperand⟩
        · exact Or.inr ⟨hRun.stops, left, earlier, hFirst⟩
        · apply Or.inl
          rw [Level.operandLevel_of_isTight hTight]
            at hOperand
          have hMiddle := length_rest_firstOperand_lt hFirst
          exact ih operand (by omega) hOperand
      rcases hLevel .comparison rfl hDone with
        hStops | ⟨hComparison, left, earlier, hSum⟩
      · exact hStops
      rcases hLevel .sum rfl hSum with
        hStops | ⟨hSum, left, earlier, hProduct⟩
      · exact hStops
      rcases hLevel .product rfl hProduct with
        hStops | ⟨hProduct, _⟩
      · exact hStops
      intro t ht
      rw [isTightOperator_eq, hComparison t ht, hSum t ht,
        hProduct t ht]
      rfl

/- A tight loop takes at most one turn. -/
theorem LoopRun.turns_le_one
    {level : Level}
    (hTight : level.isTight = true)
    {turns : Nat}
    {left value : Expr}
    {tokens rest : List Token}
    {reports : List ParseError}
    (hRun :
      LoopRun level turns left tokens value reports rest) :
    turns ≤ 1 := by
  cases hRun with
  | stop hStops =>
      exact Nat.zero_le 1
  | turn hAccepts hOperand hNext =>
      rw [Level.operandLevel_of_isTight hTight] at hOperand
      have hStops :=
        (stops_of_comparison hOperand).of_tight hTight
      cases hNext with
      | stop _ =>
          exact Nat.le_refl 1
      | turn hSecond _ _ =>
          rw [stops_cons, hSecond] at hStops
          cases hStops

end Parse

end OcScript

------------------------------------------------------------
-- One Flat Level
------------------------------------------------------------

namespace OcScript

namespace Parse

/- Go on after the left operand of a comparison. -/
def comparisonRest
    (left : Expr) :
    List Token → Reading Expr
| [] => .done left [] []
| t :: rest =>
    if isTightOperator t then
      (chain .comparison rest).val.map (.binary left t)
    else
      .done left [] (t :: rest)

theorem comparisonRest_of_stops
    {tokens : List Token}
    (hStops : Stops isTightOperator tokens)
    (left : Expr) :
    comparisonRest left tokens = .done left [] tokens := by
  cases tokens with
  | nil =>
      rfl
  | cons t rest =>
      rw [stops_cons] at hStops
      simp [comparisonRest, hStops]

/- A tight loop is at most one operator and one operand. -/
theorem chainRest_tight_cons
    {level : Level}
    (hTight : level.isTight = true)
    (left : Expr)
    (t : Token)
    (rest : List Token) :
    (chainRest level left (t :: rest)).val =
      if level.accepts t then
        (chain .comparison rest).val.map (.binary left t)
      else
        .done left [] (t :: rest) := by
  rw [val_chainRest_cons,
    Level.operandLevel_of_isTight hTight]
  congr 1
  cases hOperand : (chain .comparison rest).val with
  | failed cause reports rest =>
      rfl
  | done right reports rest =>
      have hStops :=
        (stops_of_comparison hOperand).of_tight hTight
      rw [Reading.andThen_done, chainRest_of_stops hStops,
        Level.combine_of_isTight hTight]
      simp [Reading.after]

/-
  A comparison that has been read to its end is not taken
  any further by the loops around it.
-/
theorem andThen_chainRest_comparison
    {level : Level}
    (hTight : level.isTight = true)
    (f : Expr → Expr)
    (tokens : List Token) :
    (((chain .comparison tokens).val.map f).andThen
        fun left rest => (chainRest level left rest).val) =
      (chain .comparison tokens).val.map f := by
  cases hDone : (chain .comparison tokens).val with
  | failed cause reports rest =>
      rfl
  | done value reports rest =>
      have hStops :=
        (stops_of_comparison hDone).of_tight hTight
      rw [Reading.map_done, Reading.andThen_done,
        chainRest_of_stops hStops]
      simp [Reading.after]

/-
  The three loops after one operand read what a single loop
  over all eight operators reads.
-/
theorem tightLoops_eq_comparisonRest
    (left : Expr)
    (tokens : List Token) :
    (((chainRest .product left tokens).val.andThen
        fun left rest => (chainRest .sum left rest).val).andThen
          fun left rest =>
            (chainRest .comparison left rest).val) =
      comparisonRest left tokens := by
  cases tokens with
  | nil =>
      simp [comparisonRest, Reading.after]
  | cons t rest =>
      have hTight := isTightOperator_eq t
      rw [chainRest_tight_cons rfl]
      by_cases hProduct : Level.product.accepts t = true
      · rw [if_pos hProduct,
          andThen_chainRest_comparison rfl,
          andThen_chainRest_comparison rfl]
        simp [comparisonRest, hTight, hProduct]
      rw [if_neg hProduct, Reading.andThen_done,
        Reading.after_nil, chainRest_tight_cons rfl]
      by_cases hSum : Level.sum.accepts t = true
      · rw [if_pos hSum, andThen_chainRest_comparison rfl]
        simp [comparisonRest, hTight, hSum]
      rw [if_neg hSum, Reading.andThen_done,
        Reading.after_nil, chainRest_tight_cons rfl]
      simp [comparisonRest, hTight, hProduct, hSum]

/- A comparison is an operand and at most one operator. -/
theorem val_comparison
    (tokens : List Token) :
    (chain .comparison tokens).val =
      (unary tokens).val.andThen comparisonRest := by
  have hSum :
      firstOperand .comparison tokens =
        (chain .sum tokens).val := rfl
  have hProduct :
      firstOperand .sum tokens =
        (chain .product tokens).val := rfl
  have hUnary :
      firstOperand .product tokens = (unary tokens).val :=
    rfl
  rw [val_chain, hSum, val_chain, hProduct, val_chain,
    hUnary, Reading.andThen_assoc, Reading.andThen_assoc]
  congr 1
  funext left rest
  rw [← tightLoops_eq_comparisonRest,
    Reading.andThen_assoc]

theorem val_comparison_nil :
    (chain .comparison []).val =
      .failed .expression [] [] := by
  rw [val_comparison, val_unary_nil]
  rfl

theorem val_comparison_cons
    (t : Token)
    (rest : List Token) :
    (chain .comparison (t :: rest)).val =
      if isUnaryOperator t then
        (chain .comparison rest).val.map (.unary t)
      else
        (primary (t :: rest)).val.andThen
          comparisonRest := by
  rw [val_comparison, val_unary_cons]
  split
  · cases hDone : (chain .comparison rest).val with
    | failed cause reports rest =>
        rfl
    | done value reports rest =>
        rw [Reading.map_done, Reading.andThen_done,
          comparisonRest_of_stops
            (stops_of_comparison hDone)]
        simp [Reading.after]
  · rfl

/- The flat level reads the same, the parts included. -/
theorem val_flat_eq_comparison
    (tokens : List Token) :
    (flat tokens).val = (chain .comparison tokens).val := by
  induction tokens using length_induction with
  | step tokens ih =>
      cases tokens with
      | nil =>
          rw [flat, val_primary_nil, val_comparison_nil]
      | cons t rest =>
          rw [flat, val_comparison_cons]
          split
          · rw [BoundedReading.val_past,
              BoundedReading.val_map,
              ih rest (by simp)]
          · apply BoundedReading.val_andThen
            intro left rest hRest
            cases rest with
            | nil =>
                rfl
            | cons operator others =>
                simp only [comparisonRest]
                split
                · rw [BoundedReading.val_weaken,
                    BoundedReading.val_map,
                    ih others (Nat.lt_of_succ_lt hRest)]
                · rfl

/-
  Comparisons, sums, and products make up one flat level.
  From any tokens the cascade of the three levels gives what
  the flat level gives: the same value or failure, the same
  reports, the same tokens left.  In a chain at one of the
  levels the loop takes at most one turn, and after a
  comparison there is none of the eight operators.
-/
theorem comparison_reads_flat :
    (∀ tokens,
      (chain .comparison tokens).val = (flat tokens).val) ∧
    (∀ level tokens value reports rest,
      level ∈ [Level.comparison, .sum, .product] →
      (chain level tokens).val =
          .done value reports rest →
      ∃ left earlier middle later turns,
        firstOperand level tokens =
            .done left earlier middle ∧
          LoopRun level turns left middle value later
            rest ∧
          reports = earlier ++ later ∧
          turns ≤ 1) ∧
    (∀ tokens value reports rest,
      (chain .comparison tokens).val =
          .done value reports rest →
      ∀ t ∈ rest.head?, isTightOperator t = false) := by
  refine ⟨?_, ?_, ?_⟩
  · intro tokens
    exact (val_flat_eq_comparison tokens).symm
  · intro level tokens value reports rest hLevel hDone
    have hTight : level.isTight = true := by
      revert hLevel
      cases level <;> decide
    rw [val_chain] at hDone
    rcases Reading.andThen_eq_done_iff.mp hDone with
      ⟨left, earlier, middle, later, hFirst, hLoop,
        hReports⟩
    rcases chainRest_eq_done_iff.mp hLoop with ⟨turns, hRun⟩
    exact
      ⟨left, earlier, middle, later, turns, hFirst, hRun,
        hReports, hRun.turns_le_one hTight⟩
  · intro tokens value reports rest hDone
    exact stops_of_comparison hDone

deriving instance DecidableEq for Reading

/- A comparison with a difference, up to a semicolon. -/
def mixedChain : List Token :=
  [⟨.identifier, "a", 1⟩,
    ⟨.symbol .less, "<", 1⟩,
    ⟨.identifier, "b", 1⟩,
    ⟨.symbol .minus, "-", 1⟩,
    ⟨.identifier, "c", 1⟩,
    ⟨.symbol .semicolon, ";", 1⟩]

/- The difference is the right operand. -/
def mixedChainValue : Expr :=
  .binary (.var ⟨.identifier, "a", 1⟩)
    ⟨.symbol .less, "<", 1⟩
    (.binary (.var ⟨.identifier, "b", 1⟩)
      ⟨.symbol .minus, "-", 1⟩
      (.var ⟨.identifier, "c", 1⟩))

theorem comparison_reads_flat_mixedChain :
    (flat mixedChain).val =
        .done mixedChainValue []
          [⟨.symbol .semicolon, ";", 1⟩] ∧
      ∃ left earlier middle later turns,
        firstOperand .comparison mixedChain =
            .done left earlier middle ∧
          LoopRun .comparison turns left middle
            mixedChainValue later
            [⟨.symbol .semicolon, ";", 1⟩] ∧
          [] = earlier ++ later ∧
          turns ≤ 1 := by
  rcases comparison_reads_flat with ⟨hFlat, hTurns, _⟩
  have hDone :
      (chain .comparison mixedChain).val =
        .done mixedChainValue []
          [⟨.symbol .semicolon, ";", 1⟩] := by
    decide +kernel
  refine ⟨?_, ?_⟩
  · rw [← hFlat, hDone]
  · exact hTurns _ _ _ _ _ (by simp) hDone

end Parse

end OcScript
