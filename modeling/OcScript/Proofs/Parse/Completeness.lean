import OcScript.Proofs.Parse.Soundness
import OcScript.Proofs.Trees

/-
  This file shows that the parser is complete: tokens that
  write a canonical program are read as that program.

  Readings are followed with arbitrary tokens after what is
  written, as long as the first of these cannot continue it.
  A chain at a loose level is followed with the loop still
  to come, so that a chain can itself be the left operand of
  a longer one.

  Key definitions include:
    * `OcScript.Parse.joinedRank?`
    * `OcScript.Rank.continues`
    * `OcScript.Parse.ReadsAt`
    * `OcScript.Parse.ReadsStatement`

  Key theorems include:
    * `OcScript.Parse.readsAt_rank`
    * `OcScript.Parse.readsStatement`
    * `OcScript.Parse.declaration_complete`
    * `OcScript.Parsed.ofBody_append_of_writes`
    * `OcScript.Parsed.ofTokens_complete`
-/

------------------------------------------------------------
-- What Can Continue an Expression
------------------------------------------------------------

namespace OcScript

namespace Parse

/-
  The rank of the expressions that a token joins, if it can
  stand after an operand.
-/
def joinedRank?
    (t : Token) :
    Option Rank :=
  match t.kind with
  | .symbol .plus
  | .symbol .minus
  | .symbol .star
  | .symbol .slash
  | .symbol .less
  | .symbol .lessEqual
  | .symbol .greater
  | .symbol .greaterEqual => some .comparison
  | .symbol .bangEqual
  | .symbol .equalEqual => some .equality
  | .keyword .andWord => some .conjunction
  | .keyword .orWord => some .disjunction
  | .symbol .equal => some .assignment
  | _ => none

end Parse

namespace Rank

/-
  A token after an expression that is read at a rank makes
  the reading go on.
-/
def continues
    (rank : Rank)
    (t : Token) :
    Bool :=
  match Parse.joinedRank? t with
  | some joined => joined ≤ rank
  | none => false

end Rank

namespace Parse

theorem isTightOperator_iff_joinedRank?
    (t : Token) :
    isTightOperator t = true ↔
      joinedRank? t = some .comparison := by
  unfold joinedRank?
  simp only [isTightOperator]
  split <;> simp_all

theorem accepts_iff_joinedRank?
    {level : Level}
    (hLoose : level.isTight = false)
    (t : Token) :
    level.accepts t = true ↔
      joinedRank? t = some level.rank := by
  unfold joinedRank?
  cases level <;> simp only [Level.isTight, reduceCtorEq]
    at hLoose
  all_goals
    simp only [Level.accepts, Level.operators, Level.rank]
    split <;> simp_all

theorem isEqual_iff_joinedRank?
    (t : Token) :
    t.isSymbol .equal = true ↔
      joinedRank? t = some .assignment := by
  unfold joinedRank?
  rw [Token.isSymbol_iff]
  split <;> simp_all

/- What stops a looser reading stops a tighter one. -/
theorem Stops.mono
    {tight loose : Rank}
    (hLe : tight ≤ loose)
    {rest : List Token}
    (hStops : Stops loose.continues rest) :
    Stops tight.continues rest := by
  intro t ht
  have hLoose := hStops t ht
  unfold Rank.continues at hLoose ⊢
  split
  · rename_i joined hJoined
    rw [hJoined] at hLoose
    simp only [decide_eq_false_iff_not] at hLoose ⊢
    intro hTight
    exact hLoose (Rank.le_trans hTight hLe)
  · rfl

/- A token of a joined rank stops every tighter reading. -/
theorem stops_of_joinedRank?
    {t : Token}
    {joined rank : Rank}
    (hJoined : joinedRank? t = some joined)
    (hTighter : ¬ joined ≤ rank)
    (rest : List Token) :
    Stops rank.continues (t :: rest) := by
  rw [stops_cons]
  simp [Rank.continues, hJoined, hTighter]

/- A token that joins nothing stops every reading. -/
theorem stops_of_joinedRank?_eq_none
    {t : Token}
    (hJoined : joinedRank? t = none)
    (rank : Rank)
    (rest : List Token) :
    Stops rank.continues (t :: rest) := by
  rw [stops_cons]
  simp [Rank.continues, hJoined]

/- What stops a reading at a rank does not join that rank. -/
theorem Stops.joinedRank?_ne
    {rank : Rank}
    {rest : List Token}
    (hStops : Stops rank.continues rest)
    {t : Token}
    (ht : t ∈ rest.head?) :
    joinedRank? t ≠ some rank := by
  intro hJoined
  have hFalse := hStops t ht
  simp [Rank.continues, hJoined, Rank.le_refl] at hFalse

theorem Stops.tight
    {rest : List Token}
    (hStops : Stops Rank.comparison.continues rest) :
    Stops isTightOperator rest := by
  intro t ht
  rw [← Bool.not_eq_true, isTightOperator_iff_joinedRank?]
  exact hStops.joinedRank?_ne ht

theorem Stops.accepts
    {level : Level}
    (hLoose : level.isTight = false)
    {rest : List Token}
    (hStops : Stops level.rank.continues rest) :
    Stops level.accepts rest := by
  intro t ht
  rw [← Bool.not_eq_true, accepts_iff_joinedRank? hLoose]
  exact hStops.joinedRank?_ne ht

end Parse

end OcScript

------------------------------------------------------------
-- Reading at a Rank
------------------------------------------------------------

namespace OcScript

namespace Parse

/-
  The chain that starts with the written expression goes on
  with its loop.
-/
def ReadsChain
    (level : Level)
    (e : Expr)
    (used : List Token) : Prop :=
  ∀ rest,
    Stops level.operandLevel.rank.continues rest →
    (chain level (used ++ rest)).val =
      (chainRest level e rest).val

/-
  The tokens are read as the expression at a rank, whatever
  tokens follow that cannot continue it.
-/
def ReadsAt
    (rank : Rank)
    (e : Expr)
    (used : List Token) : Prop :=
  match rank with
  | .primary =>
      ∀ rest,
        (primary (used ++ rest)).val = .done e [] rest
  | .comparison =>
      ∀ rest,
        Stops Rank.comparison.continues rest →
        (chain .comparison (used ++ rest)).val =
          .done e [] rest
  | .equality => ReadsChain .equality e used
  | .conjunction => ReadsChain .conjunction e used
  | .disjunction => ReadsChain .disjunction e used
  | .assignment =>
      ∀ rest,
        Stops Rank.assignment.continues rest →
        (assignment (used ++ rest)).val = .done e [] rest

/- The loop of a chain stops where the chain cannot go on. -/
theorem ReadsChain.chain_eq_done
    {level : Level}
    (hLoose : level.isTight = false)
    {e : Expr}
    {used : List Token}
    (hReads : ReadsChain level e used)
    {rest : List Token}
    (hStops : Stops level.rank.continues rest) :
    (chain level (used ++ rest)).val = .done e [] rest := by
  have hTighter : level.operandLevel.rank ≤ level.rank := by
    cases level <;> decide
  rw [hReads rest (hStops.mono hTighter),
    chainRest_of_stops (hStops.accepts hLoose)]

/- The first operand of a chain starts the chain. -/
theorem readsChain_of_operand
    {level : Level}
    (hLoose : level.isTight = false)
    {e : Expr}
    {used : List Token}
    (hOperand :
      ∀ rest,
        Stops level.operandLevel.rank.continues rest →
        (chain level.operandLevel (used ++ rest)).val =
          .done e [] rest) :
    ReadsChain level e used := by
  intro rest hStops
  have hFirst :
      ∀ tokens,
        firstOperand level tokens =
          (chain level.operandLevel tokens).val := by
    intro tokens
    cases level with
    | disjunction => rfl
    | conjunction => rfl
    | equality => rfl
    | _ => cases hLoose
  rw [val_chain, hFirst, hOperand rest hStops,
    Reading.andThen_done, Reading.after_nil]

/- A primary expression does not start with an operator. -/
theorem not_isUnaryOperator_of_primary
    {t : Token}
    {others rest : List Token}
    {e : Expr}
    {reports : List ParseError}
    (hDone :
      (primary (t :: others)).val = .done e reports rest) :
    ¬ isUnaryOperator t = true := by
  intro hUnary
  have hAtom : atom? t = none := by
    simp only [isUnaryOperator, Token.isSymbol,
      decide_eq_true_eq] at hUnary
    unfold atom?
    split <;> simp_all
  have hOpen : ¬ t.isSymbol .leftParen = true := by
    simp only [isUnaryOperator, Token.isSymbol,
      decide_eq_true_eq] at hUnary ⊢
    rcases hUnary with hKind | hKind <;> simp [hKind]
  rw [val_primary_of_not_atom hAtom, if_neg hOpen] at hDone
  cases hDone

theorem readsAt_comparison_of_primary
    {e : Expr}
    {used : List Token}
    (hReads : ReadsAt .primary e used) :
    ReadsAt .comparison e used := by
  intro rest hStops
  have hPrimary := hReads rest
  cases hTokens : used ++ rest with
  | nil =>
      rw [hTokens, val_primary_nil] at hPrimary
      cases hPrimary
  | cons t others =>
      rw [hTokens] at hPrimary
      have hOperand :=
        not_isUnaryOperator_of_primary hPrimary
      rw [val_comparison_cons, if_neg hOperand, hPrimary,
        Reading.andThen_done, Reading.after_nil,
        comparisonRest_of_stops hStops.tight]

theorem readsAt_assignment_of_disjunction
    {e : Expr}
    {used : List Token}
    (hReads : ReadsAt .disjunction e used) :
    ReadsAt .assignment e used := by
  intro rest hStops
  have hTighter : Rank.disjunction ≤ .assignment := by
    decide
  have hChain :=
    ReadsChain.chain_eq_done rfl hReads
      (hStops.mono hTighter)
  rw [val_assignment, hChain, Reading.andThen_done,
    Reading.after_nil]
  cases rest with
  | nil =>
      rfl
  | cons t others =>
      have hEqual : ¬ t.isSymbol .equal = true := by
        rw [isEqual_iff_joinedRank?]
        exact hStops.joinedRank?_ne rfl
      rw [assignmentRest, if_neg hEqual]

theorem readsAt_equality_of_comparison
    {e : Expr}
    {used : List Token}
    (hReads : ReadsAt .comparison e used) :
    ReadsAt .equality e used :=
  @readsChain_of_operand .equality rfl e used hReads

theorem readsAt_conjunction_of_equality
    {e : Expr}
    {used : List Token}
    (hReads : ReadsAt .equality e used) :
    ReadsAt .conjunction e used := by
  apply readsChain_of_operand rfl
  intro rest hStops
  exact ReadsChain.chain_eq_done rfl hReads hStops

theorem readsAt_disjunction_of_conjunction
    {e : Expr}
    {used : List Token}
    (hReads : ReadsAt .conjunction e used) :
    ReadsAt .disjunction e used := by
  apply readsChain_of_operand rfl
  intro rest hStops
  exact ReadsChain.chain_eq_done rfl hReads hStops

/-
  What is read at a rank is read at every looser one, one
  rank after the other.
-/
theorem ReadsAt.mono
    {e : Expr}
    {used : List Token}
    {tight loose : Rank}
    (hReads : ReadsAt tight e used)
    (hLe : tight ≤ loose) :
    ReadsAt loose e used := by
  have hStep :
      ∀ {below rank : Rank},
        rank.height = below.height + 1 →
        (ReadsAt below e used → ReadsAt rank e used) →
        (tight ≤ below → ReadsAt below e used) →
        tight ≤ rank →
        ReadsAt rank e used := by
    intro below rank hNext hLoosen hBelow hLe
    by_cases hEq : tight = rank
    · subst hEq
      exact hReads
    · apply hLoosen
      apply hBelow
      have hHeight := mt Rank.height_injective hEq
      rw [Rank.le_def] at hLe ⊢
      omega
  have hPrimary :
      tight ≤ .primary → ReadsAt .primary e used := by
    intro hLe
    cases tight with
    | primary => exact hReads
    | _ => exact absurd hLe (by decide)
  have hComparison :=
    hStep rfl readsAt_comparison_of_primary hPrimary
  have hEquality :=
    hStep rfl readsAt_equality_of_comparison hComparison
  have hConjunction :=
    hStep rfl readsAt_conjunction_of_equality hEquality
  have hDisjunction :=
    hStep rfl readsAt_disjunction_of_conjunction
      hConjunction
  have hAssignment :=
    hStep rfl readsAt_assignment_of_disjunction hDisjunction
  cases loose with
  | primary => exact hPrimary hLe
  | comparison => exact hComparison hLe
  | equality => exact hEquality hLe
  | conjunction => exact hConjunction hLe
  | disjunction => exact hDisjunction hLe
  | assignment => exact hAssignment hLe

end Parse

end OcScript

------------------------------------------------------------
-- Expressions
------------------------------------------------------------

namespace OcScript

namespace Parse

/- A token that denotes a value is read as the value. -/
theorem atom?_of_literalKind
    {t : Token}
    {value : Value}
    (hKind : t.kind = value.literalKind) :
    atom? t = some (.literal value) := by
  unfold atom?
  cases value with
  | bool truth =>
      cases truth <;> simp [hKind, Value.literalKind]
  | str text => simp [hKind, Value.literalKind]
  | num number => simp [hKind, Value.literalKind]
  | null => simp [hKind, Value.literalKind]

theorem atom?_of_identifier
    {t : Token}
    (hKind : t.kind = .identifier) :
    atom? t = some (.var t) := by
  simp [atom?, hKind]

theorem readsAt_name
    {name : Token}
    (hName : name.kind = .identifier) :
    ReadsAt .primary (.var name) [name] := by
  intro rest
  exact val_primary_atom (atom?_of_identifier hName) rest

theorem readsAt_group
    {inner : Expr}
    {openParen closeParen : Token}
    {used : List Token}
    (hInner : ReadsAt .assignment inner used)
    (hOpen : openParen.kind = .symbol .leftParen)
    (hClose : closeParen.kind = .symbol .rightParen) :
    ReadsAt .primary (.group inner)
      (openParen :: (used ++ [closeParen])) := by
  intro rest
  have hAtom : atom? openParen = none := by
    simp [atom?, hOpen]
  have hStops :
      Stops Rank.assignment.continues (closeParen :: rest) :=
    stops_of_joinedRank?_eq_none
      (by simp [joinedRank?, hClose]) _ _
  have hRead :
      (assignment (used ++ [closeParen] ++ rest)).val =
        .done inner [] (closeParen :: rest) := by
    rw [List.append_assoc]
    exact hInner _ hStops
  rw [List.cons_append, val_primary_of_not_atom hAtom,
    if_pos (Token.isSymbol_iff.mpr hOpen), hRead,
    Reading.andThen_done, Reading.after_nil,
    BoundedReading.val_expect_of_kind hClose,
    Reading.map_done]

theorem readsAt_unary
    {operand : Expr}
    {operator : Token}
    {used : List Token}
    (hOperator : isUnaryOperator operator = true)
    (hOperand : ReadsAt .comparison operand used) :
    ReadsAt .comparison (.unary operator operand)
      (operator :: used) := by
  intro rest hStops
  rw [List.cons_append, val_comparison_cons,
    if_pos hOperator, hOperand rest hStops,
    Reading.map_done]

theorem readsAt_tight
    {left right : Expr}
    {operator : Token}
    {front back : List Token}
    (hOperator : isTightOperator operator = true)
    (hLeft : ReadsAt .primary left front)
    (hRight : ReadsAt .comparison right back) :
    ReadsAt .comparison (.binary left operator right)
      (front ++ operator :: back) := by
  intro rest hStops
  have hPrimary := hLeft (operator :: (back ++ rest))
  rw [List.append_assoc, List.cons_append]
  cases hTokens : front ++ operator :: (back ++ rest) with
  | nil =>
      rw [hTokens, val_primary_nil] at hPrimary
      cases hPrimary
  | cons t others =>
      rw [hTokens] at hPrimary
      have hOperand :=
        not_isUnaryOperator_of_primary hPrimary
      rw [val_comparison_cons, if_neg hOperand, hPrimary,
        Reading.andThen_done, Reading.after_nil,
        comparisonRest, if_pos hOperator,
        hRight rest hStops, Reading.map_done]

theorem readsAt_assign
    {name equals : Token}
    {value : Expr}
    {used : List Token}
    (hName : name.kind = .identifier)
    (hEquals : equals.kind = .symbol .equal)
    (hValue : ReadsAt .assignment value used) :
    ReadsAt .assignment (.assign name value)
      (name :: equals :: used) := by
  intro rest hStops
  have hEqual : equals.isSymbol .equal = true :=
    Token.isSymbol_iff.mpr hEquals
  have hJoined :=
    (isEqual_iff_joinedRank? equals).mp hEqual
  have hTarget : ReadsAt .disjunction (.var name) [name] :=
    (readsAt_name hName).mono (by decide)
  have hChain :
      (chain .disjunction
          (name :: equals :: (used ++ rest))).val =
        .done (.var name) [] (equals :: (used ++ rest)) :=
    ReadsChain.chain_eq_done rfl hTarget
      (stops_of_joinedRank? hJoined (by decide) _)
  rw [List.cons_append, List.cons_append, val_assignment,
    hChain, Reading.andThen_done, Reading.after_nil,
    assignmentRest, if_pos hEqual, hValue rest hStops]
  rfl

/- One more operand lengthens a chain at a loose level. -/
theorem readsAt_combine
    {level : Level}
    (hLoose : level.isTight = false)
    {left right : Expr}
    {operator : Token}
    {front back : List Token}
    (hAccepts : level.accepts operator = true)
    (hLeft : ReadsAt level.rank left front)
    (hRight : ReadsAt level.operandLevel.rank right back) :
    ReadsAt level.rank (level.combine left operator right)
      (front ++ operator :: back) := by
  have hChain :
      ∀ e used,
        ReadsAt level.rank e used =
          ReadsChain level e used := by
    intro e used
    cases level with
    | disjunction => rfl
    | conjunction => rfl
    | equality => rfl
    | _ => cases hLoose
  have hOperand :
      ∀ rest,
        Stops level.operandLevel.rank.continues rest →
        (chain level.operandLevel (back ++ rest)).val =
          .done right [] rest := by
    intro rest hStops
    cases level with
    | disjunction =>
        exact ReadsChain.chain_eq_done rfl hRight hStops
    | conjunction =>
        exact ReadsChain.chain_eq_done rfl hRight hStops
    | equality => exact hRight rest hStops
    | _ => cases hLoose
  have hJoined :=
    (accepts_iff_joinedRank? hLoose operator).mp hAccepts
  have hTighter :
      ¬ level.rank ≤ level.operandLevel.rank := by
    revert hLoose
    cases level <;> decide
  rw [hChain] at hLeft ⊢
  intro rest hStops
  rw [List.append_assoc, List.cons_append,
    hLeft _ (stops_of_joinedRank? hJoined hTighter _),
    val_chainRest_cons, if_pos hAccepts,
    hOperand rest hStops, Reading.andThen_done,
    Reading.after_nil]

/-
  A written canonical expression is read at its rank.  The
  operands are read at their own ranks, which the canonical
  form bounds by what the grammar reads at their places.
-/
theorem readsAt_rank
    {e : Expr}
    (hCanonical : e.Canonical)
    {used : List Token}
    (hWrites : Writes e.slots used) :
    ReadsAt e.rank e used := by
  induction e generalizing used with
  | literal value =>
      rcases hWrites.uncons with ⟨t, rest, rfl, hKind, hNil⟩
      cases hNil
      intro rest
      exact val_primary_atom (atom?_of_literalKind hKind) rest
  | var name =>
      rcases hWrites.uncons with ⟨t, rest, rfl, hFits, hNil⟩
      cases hNil
      cases hFits
      exact readsAt_name hCanonical
  | group inner ih =>
      rcases hWrites.uncons with
        ⟨openParen, inside, rfl, hOpen, hInside⟩
      rcases hInside.unsnoc with
        ⟨used, closeParen, rfl, hUsed, hClose⟩
      have hInner : ReadsAt .assignment inner used :=
        (ih hCanonical hUsed).mono (Rank.le_assignment _)
      exact readsAt_group hInner hOpen hClose
  | unary operator operand ih =>
      rcases hCanonical with ⟨hOperator, hRank, hOperand⟩
      rcases hWrites.uncons with ⟨t, used, rfl, hFits, hUsed⟩
      cases hFits
      exact readsAt_unary hOperator
        ((ih hOperand hUsed).mono hRank)
  | binary left operator right leftIH rightIH =>
      rcases hCanonical with
        ⟨hOperator, hRightRank, hLeft, hRight⟩
      rcases hWrites.split with
        ⟨front, others, rfl, hFront, hOthers⟩
      rcases hOthers.uncons with ⟨t, back, rfl, hFits, hBack⟩
      cases hFits
      have hLeft := leftIH hLeft hFront
      have hRight := (rightIH hRight hBack).mono hRightRank
      rcases hOperator with
        ⟨hTight, hLeftRank⟩ | ⟨hAccepts, hLeftRank⟩
      · have hRefuses :
            Level.equality.accepts operator = false :=
          accepts_eq_false_of_isTightOperator rfl hTight
        simp only [Expr.rank, hRefuses]
        exact readsAt_tight hTight (hLeft.mono hLeftRank)
          hRight
      · simp only [Expr.rank, hAccepts, if_true]
        exact @readsAt_combine .equality rfl _ _ _ _ _
          hAccepts (hLeft.mono hLeftRank) hRight
  | logical left operator right leftIH rightIH =>
      rcases hCanonical with ⟨hOperator, hLeft, hRight⟩
      rcases hWrites.split with
        ⟨front, others, rfl, hFront, hOthers⟩
      rcases hOthers.uncons with ⟨t, back, rfl, hFits, hBack⟩
      cases hFits
      have hLeft := leftIH hLeft hFront
      have hRight := rightIH hRight hBack
      rcases hOperator with
        ⟨hAccepts, hLeftRank, hRightRank⟩ |
          ⟨hAccepts, hLeftRank, hRightRank⟩
      · simp only [Expr.rank, hAccepts, if_true]
        exact @readsAt_combine .conjunction rfl _ _ _ _ _
          hAccepts (hLeft.mono hLeftRank)
          (hRight.mono hRightRank)
      · have hRefuses :
            ¬ Level.conjunction.accepts operator = true := by
          rw [accepts_iff_joinedRank? rfl] at hAccepts ⊢
          rw [hAccepts]
          decide
        simp only [Expr.rank, hRefuses]
        exact @readsAt_combine .disjunction rfl _ _ _ _ _
          hAccepts (hLeft.mono hLeftRank)
          (hRight.mono hRightRank)
  | assign name value ih =>
      rcases hCanonical with ⟨hName, hValue⟩
      rcases hWrites.uncons with ⟨t, others, rfl, hFits, hOthers⟩
      cases hFits
      rcases hOthers.uncons with
        ⟨equals, used, rfl, hEquals, hUsed⟩
      have hValue : ReadsAt .assignment value used :=
        (ih hValue hUsed).mono (Rank.le_assignment _)
      exact readsAt_assign hName hEquals hValue

end Parse

end OcScript

------------------------------------------------------------
-- First Tokens
------------------------------------------------------------

namespace OcScript

namespace Parse

/- An expression can start with the token. -/
def startsExpression
    (t : Token) :
    Bool :=
  isUnaryOperator t || (atom? t).isSome ||
    t.isSymbol .leftParen

/- A declaration or a statement can start with the token. -/
def startsItem
    (t : Token) :
    Bool :=
  startsExpression t || opensStatement t ||
    t.isKeyword .varWord

/- The kinds with which no expression starts. -/
theorem startsExpression_eq_false
    {t : Token}
    (hKind :
      opensStatement t = true ∨
        t.kind = .keyword .varWord ∨
        t.kind = .keyword .elseWord ∨
        t.kind = .symbol .rightBrace) :
    startsExpression t = false := by
  simp only [opensStatement, List.mem_cons,
    List.not_mem_nil, or_false, decide_eq_true_eq] at hKind
  rcases hKind with
    (hKind | hKind | hKind | hKind) | hKind | hKind | hKind
  all_goals
    simp [startsExpression, isUnaryOperator, atom?,
      Token.isSymbol, hKind]

/- What starts an expression starts no other statement. -/
theorem excludes_of_startsExpression
    {t : Token}
    (hStarts : startsExpression t = true) :
    opensStatement t = false ∧
      t.isKeyword .varWord = false := by
  refine ⟨?_, ?_⟩
  · by_contra hOpens
    rw [Bool.not_eq_false] at hOpens
    have hFalse := startsExpression_eq_false (Or.inl hOpens)
    rw [hStarts] at hFalse
    cases hFalse
  · by_contra hVar
    rw [Bool.not_eq_false, Token.isKeyword_iff] at hVar
    have hFalse :=
      startsExpression_eq_false (Or.inr (Or.inl hVar))
    rw [hStarts] at hFalse
    cases hFalse

/- No item starts with a closing brace or an else. -/
theorem excludes_of_startsItem
    {t : Token}
    (hStarts : startsItem t = true) :
    t.isSymbol .rightBrace = false ∧ isElse t = false := by
  have hKind :
      t.kind = .keyword .elseWord ∨
          t.kind = .symbol .rightBrace →
        startsItem t = false := by
    intro hKind
    have hFalse :=
      startsExpression_eq_false (Or.inr (Or.inr hKind))
    rcases hKind with hKind | hKind <;>
      simp [startsItem, hFalse, opensStatement,
        Token.isKeyword, hKind]
  rw [hStarts] at hKind
  refine ⟨?_, ?_⟩
  · by_contra hBrace
    rw [Bool.not_eq_false, Token.isSymbol_iff] at hBrace
    cases hKind (Or.inr hBrace)
  · by_contra hElse
    rw [Bool.not_eq_false, isElse, Token.isKeyword_iff]
      at hElse
    cases hKind (Or.inl hElse)

/- A written expression starts as expressions do. -/
theorem startsExpression_of_writes
    {e : Expr}
    (hCanonical : e.Canonical)
    {used : List Token}
    (hWrites : Writes e.slots used) :
    ∃ t others,
      used = t :: others ∧ startsExpression t = true := by
  induction e generalizing used with
  | literal value =>
      rcases hWrites.uncons with ⟨t, rest, rfl, hKind, _⟩
      have hAtom := atom?_of_literalKind hKind
      exact ⟨t, rest, rfl, by simp [startsExpression, hAtom]⟩
  | var name =>
      rcases hWrites.uncons with ⟨t, rest, rfl, rfl, _⟩
      have hAtom := atom?_of_identifier hCanonical
      exact ⟨t, rest, rfl, by simp [startsExpression, hAtom]⟩
  | group inner ih =>
      rcases hWrites.uncons with ⟨t, rest, rfl, hOpen, _⟩
      have hSymbol := Token.isSymbol_iff.mpr hOpen
      exact
        ⟨t, rest, rfl, by simp [startsExpression, hSymbol]⟩
  | unary operator operand ih =>
      rcases hWrites.uncons with ⟨t, rest, rfl, rfl, _⟩
      exact
        ⟨t, rest, rfl,
          by simp [startsExpression, hCanonical.1]⟩
  | binary left operator right leftIH rightIH =>
      rcases hWrites.split with
        ⟨front, back, rfl, hFront, _⟩
      rcases leftIH hCanonical.2.2.1 hFront with
        ⟨t, others, rfl, hStarts⟩
      exact ⟨t, others ++ back, rfl, hStarts⟩
  | logical left operator right leftIH rightIH =>
      rcases hWrites.split with
        ⟨front, back, rfl, hFront, _⟩
      rcases leftIH hCanonical.2.1 hFront with
        ⟨t, others, rfl, hStarts⟩
      exact ⟨t, others ++ back, rfl, hStarts⟩
  | assign name value ih =>
      rcases hWrites.uncons with ⟨t, rest, rfl, rfl, _⟩
      have hAtom := atom?_of_identifier hCanonical.1
      exact ⟨t, rest, rfl, by simp [startsExpression, hAtom]⟩

/-
  A written statement starts as items do, and not with the
  keyword of declarations unless it is one.
-/
theorem startsItem_of_writes
    {s : Stmt}
    (hCanonical : s.Canonical)
    {used : List Token}
    (hWrites : Writes s.slots used) :
    ∃ t others,
      used = t :: others ∧
        startsItem t = true ∧
        (s.isDeclaration = false →
          t.isKeyword .varWord = false) := by
  have hOpens :
      ∀ {t : Token} {kind : TokenKind} {rest : List Token},
        t.kind = kind →
        kind ∈
          [TokenKind.keyword .ifWord, .keyword .printWord,
            .keyword .whileWord, .symbol .leftBrace] →
        ∃ first others,
          t :: rest = first :: others ∧
            startsItem first = true ∧
            (s.isDeclaration = false →
              first.isKeyword .varWord = false) := by
    intro t kind rest hKind hMem
    subst hKind
    refine ⟨t, rest, rfl, ?_, ?_⟩
    · simp [startsItem, opensStatement, hMem]
    · intro _
      simp only [Token.isKeyword, decide_eq_false_iff_not]
      intro hVar
      rw [hVar] at hMem
      revert hMem
      decide
  cases s with
  | expression value =>
      rcases hWrites.split with
        ⟨front, back, rfl, hFront, _⟩
      rcases startsExpression_of_writes hCanonical hFront with
        ⟨t, others, rfl, hStarts⟩
      exact
        ⟨t, others ++ back, rfl,
          by simp [startsItem, hStarts],
          fun _ => (excludes_of_startsExpression hStarts).2⟩
  | print keyword value =>
      rcases hWrites.uncons with ⟨t, rest, rfl, rfl, _⟩
      exact hOpens hCanonical.1 (by decide)
  | declare name initial =>
      cases initial <;>
      · rcases hWrites.uncons with ⟨t, rest, rfl, hVar, _⟩
        have hKeyword := Token.isKeyword_iff.mpr hVar
        exact
          ⟨t, rest, rfl, by simp [startsItem, hKeyword],
            fun hItem => Bool.noConfusion hItem⟩
  | block body =>
      rcases hWrites.uncons with ⟨t, rest, rfl, hKind, _⟩
      exact hOpens hKind (by decide)
  | ifThen condition thenBranch =>
      rcases hWrites.uncons with ⟨t, rest, rfl, hKind, _⟩
      exact hOpens hKind (by decide)
  | ifElse condition thenBranch elseBranch =>
      rcases hWrites.uncons with ⟨t, rest, rfl, hKind, _⟩
      exact hOpens hKind (by decide)
  | whileDo condition body =>
      rcases hWrites.uncons with ⟨t, rest, rfl, hKind, _⟩
      exact hOpens hKind (by decide)
  | skipped =>
      cases hCanonical

end Parse

end OcScript

------------------------------------------------------------
-- Parts of Statements
------------------------------------------------------------

namespace OcScript

namespace Parse

/- An expression is read up to a token that joins nothing. -/
theorem assignment_complete
    {value : Expr}
    (hCanonical : value.Canonical)
    {used : List Token}
    (hWrites : Writes value.slots used)
    {t : Token}
    (hJoined : joinedRank? t = none)
    (rest : List Token) :
    (assignment (used ++ t :: rest)).val =
      .done value [] (t :: rest) := by
  have hReads : ReadsAt .assignment value used :=
    (readsAt_rank hCanonical hWrites).mono
      (Rank.le_assignment _)
  exact hReads _ (stops_of_joinedRank?_eq_none hJoined _ _)

theorem closedExpression_complete
    {value : Expr}
    (hCanonical : value.Canonical)
    {used : List Token}
    (hWrites :
      Writes (value.slots ++ [.symbol .semicolon]) used)
    (cause : ParseCause)
    (rest : List Token) :
    (closedExpression cause (used ++ rest)).val =
      .done value [] rest := by
  rcases hWrites.unsnoc with
    ⟨front, semicolon, rfl, hFront, hSemicolon⟩
  have hKind : semicolon.kind = .symbol .semicolon :=
    hSemicolon
  have hJoined : joinedRank? semicolon = none := by
    simp [joinedRank?, hKind]
  rw [val_closedExpression, List.append_assoc,
    List.singleton_append,
    assignment_complete hCanonical hFront hJoined,
    Reading.andThen_done, Reading.after_nil,
    BoundedReading.val_expect_of_kind hKind,
    Reading.map_done]

theorem condition_complete
    {value : Expr}
    (hCanonical : value.Canonical)
    {used : List Token}
    (hWrites : Writes (Stmt.conditionSlots value) used)
    (keyword : Token)
    (unclosed : ParseCause)
    (rest : List Token) :
    (condition keyword unclosed (used ++ rest)).val =
      .done value [] rest := by
  rcases hWrites.uncons with
    ⟨openParen, inside, rfl, hOpen, hInside⟩
  rcases hInside.unsnoc with
    ⟨front, closeParen, rfl, hFront, hClose⟩
  have hKind : closeParen.kind = .symbol .rightParen :=
    hClose
  have hJoined : joinedRank? closeParen = none := by
    simp [joinedRank?, hKind]
  rw [val_condition, List.cons_append,
    BoundedReading.val_expect_of_kind hOpen,
    Reading.andThen_done, Reading.after_nil,
    List.append_assoc, List.singleton_append,
    assignment_complete hCanonical hFront hJoined,
    Reading.andThen_done, Reading.after_nil,
    BoundedReading.val_expect_of_kind hKind,
    Reading.map_done]

theorem variableDeclaration_complete
    {name : Token}
    {initial : Option Expr}
    (hCanonical : (Stmt.declare name initial).Canonical)
    {keyword : Token}
    {used : List Token}
    (hWrites :
      Writes (Stmt.declare name initial).slots
        (keyword :: used))
    (rest : List Token) :
    (variableDeclaration (used ++ rest)).val =
      .done (.declare name initial) [] rest := by
  cases initial with
  | none =>
      rcases hWrites.uncons with ⟨_, _, hEq, _, hUsed⟩
      cases hEq
      rcases hUsed.uncons with ⟨_, _, rfl, rfl, hRest⟩
      rcases hRest.uncons with ⟨t, _, rfl, hKind, hNil⟩
      cases hNil
      have hSemicolon : t.kind = .symbol .semicolon := hKind
      have hEqual : ¬ t.isSymbol .equal = true := by
        simp [Token.isSymbol, hSemicolon]
      rw [val_variableDeclaration, List.cons_append,
        BoundedReading.val_expect_of_kind hCanonical,
        Reading.andThen_done, Reading.after_nil,
        List.cons_append, List.nil_append,
        val_initializer_cons, if_neg hEqual,
        BoundedReading.val_expect_of_kind hSemicolon,
        Reading.map_done, Reading.map_done]
  | some value =>
      rcases hCanonical with ⟨hName, hValue⟩
      rcases hWrites.uncons with ⟨_, _, hEq, _, hUsed⟩
      cases hEq
      rcases hUsed.uncons with ⟨_, _, rfl, rfl, hRest⟩
      rcases hRest.uncons with ⟨t, _, rfl, hKind, hClosed⟩
      have hEqual : t.isSymbol .equal = true :=
        Token.isSymbol_iff.mpr hKind
      rw [val_variableDeclaration, List.cons_append,
        BoundedReading.val_expect_of_kind hName,
        Reading.andThen_done, Reading.after_nil,
        List.cons_append, val_initializer_cons,
        if_pos hEqual,
        closedExpression_complete hValue hClosed,
        Reading.map_done, Reading.map_done]

end Parse

end OcScript

------------------------------------------------------------
-- Statements
------------------------------------------------------------

namespace OcScript

namespace Parse

/-
  A written statement is read as itself, unless it ends in
  an open condition and an else follows.
-/
def ReadsStatement
    (eof : Token)
    (s : Stmt) : Prop :=
  ∀ used,
    Writes s.slots used →
    ∀ rest,
      (s.endsOpen = true → Stops isElse rest) →
      (statement eof (used ++ rest)).val =
        .done s [] rest

theorem readsStatement_expression
    (eof : Token)
    {value : Expr}
    (hCanonical : value.Canonical) :
    ReadsStatement eof (.expression value) := by
  intro used hWrites rest _
  rcases hWrites.split with ⟨front, back, hUsed, hFront, _⟩
  rcases startsExpression_of_writes hCanonical hFront with
    ⟨t, others, rfl, hStarts⟩
  have hOpens := (excludes_of_startsExpression hStarts).1
  have hClosed :=
    closedExpression_complete hCanonical hWrites
      .semicolonAfterExpression rest
  rw [hUsed, List.cons_append, List.cons_append] at hClosed ⊢
  rw [val_statement_expression hOpens, hClosed,
    Reading.map_done]

theorem readsStatement_print
    (eof : Token)
    {keyword : Token}
    {value : Expr}
    (hCanonical : (Stmt.print keyword value).Canonical) :
    ReadsStatement eof (.print keyword value) := by
  intro used hWrites rest _
  rcases hCanonical with ⟨hKeyword, hValue⟩
  rcases hWrites.uncons with ⟨_, others, rfl, rfl, hOthers⟩
  rw [List.cons_append, val_statement_print hKeyword,
    closedExpression_complete hValue hOthers,
    Reading.map_done]

theorem readsStatement_ifThen
    {eof : Token}
    {test : Expr}
    {thenBranch : Stmt}
    (hTest : test.Canonical)
    (hThen : ReadsStatement eof thenBranch) :
    ReadsStatement eof (.ifThen test thenBranch) := by
  intro used hWrites rest hElse
  rcases hWrites.uncons with
    ⟨keyword, others, rfl, hKeyword, hOthers⟩
  rcases hOthers.split with
    ⟨front, back, rfl, hFront, hBack⟩
  have hStops : Stops isElse rest := hElse rfl
  rw [List.cons_append, List.append_assoc,
    val_statement_if hKeyword,
    condition_complete hTest hFront,
    Reading.andThen_done, Reading.after_nil,
    val_ifBranches, hThen back hBack rest fun _ => hStops,
    Reading.andThen_done, Reading.after_nil]
  cases rest with
  | nil =>
      rfl
  | cons t after =>
      rw [stops_cons, isElse] at hStops
      rw [branchesRest, if_neg (Bool.not_eq_true _ ▸ hStops)]

theorem readsStatement_ifElse
    {eof : Token}
    {test : Expr}
    {thenBranch elseBranch : Stmt}
    (hTest : test.Canonical)
    (hThen : ReadsStatement eof thenBranch)
    (hClosed : thenBranch.endsOpen = false)
    (hElse : ReadsStatement eof elseBranch) :
    ReadsStatement eof
      (.ifElse test thenBranch elseBranch) := by
  intro used hWrites rest hOpen
  rcases hWrites.uncons with
    ⟨keyword, others, rfl, hKeyword, hOthers⟩
  rcases hOthers.split with
    ⟨front, branches, rfl, hFront, hBranches⟩
  rcases hBranches.split with
    ⟨middle, elsePart, rfl, hMiddle, hElsePart⟩
  rcases hElsePart.uncons with
    ⟨elseWord, back, rfl, hElseWord, hBack⟩
  have hThenRead :=
    hThen middle hMiddle (elseWord :: (back ++ rest))
      (by simp [hClosed])
  have hElseRead := hElse back hBack rest hOpen
  rw [List.cons_append, List.append_assoc,
    List.append_assoc, List.cons_append,
    val_statement_if hKeyword,
    condition_complete hTest hFront,
    Reading.andThen_done, Reading.after_nil,
    val_ifBranches, hThenRead, Reading.andThen_done,
    Reading.after_nil, branchesRest,
    if_pos (Token.isKeyword_iff.mpr hElseWord), hElseRead,
    Reading.map_done]

theorem readsStatement_whileDo
    {eof : Token}
    {test : Expr}
    {body : Stmt}
    (hTest : test.Canonical)
    (hBody : ReadsStatement eof body) :
    ReadsStatement eof (.whileDo test body) := by
  intro used hWrites rest hOpen
  rcases hWrites.uncons with
    ⟨keyword, others, rfl, hKeyword, hOthers⟩
  rcases hOthers.split with
    ⟨front, back, rfl, hFront, hBack⟩
  rw [List.cons_append, List.append_assoc,
    val_statement_while hKeyword,
    condition_complete hTest hFront,
    Reading.andThen_done, Reading.after_nil,
    hBody back hBack rest hOpen, Reading.map_done]

/-
  A written item is read as itself, declaration or not, if
  its statement is.
-/
theorem declaration_complete
    {eof : Token}
    {s : Stmt}
    (hCanonical : s.Canonical)
    (hReads :
      s.isDeclaration = false → ReadsStatement eof s)
    {used : List Token}
    (hWrites : Writes s.slots used)
    {rest : List Token}
    (hElse : s.endsOpen = true → Stops isElse rest) :
    (declaration eof (used ++ rest)).val =
      ⟨s, [], rest⟩ := by
  rcases startsItem_of_writes hCanonical hWrites with
    ⟨t, others, rfl, _, hVar⟩
  rw [List.cons_append, val_declaration_cons]
  cases hDeclares : s.isDeclaration with
  | false =>
      have hRead := hReads hDeclares _ hWrites rest hElse
      rw [List.cons_append] at hRead
      rw [hVar hDeclares, hRead]
      rfl
  | true =>
      cases s with
      | declare name initial =>
          have hKeyword : t.isKeyword .varWord = true := by
            rw [Token.isKeyword_iff]
            cases initial <;>
              exact (List.forall₂_cons.mp hWrites).1
          rw [if_pos hKeyword,
            variableDeclaration_complete hCanonical hWrites]
          rfl
      | _ => cases hDeclares

end Parse

end OcScript

------------------------------------------------------------
-- Lists of Statements
------------------------------------------------------------

namespace OcScript

namespace Parse

/- No else comes between written items. -/
theorem stops_else_of_writes
    {body : List Stmt}
    (hCanonical : Stmt.CanonicalAll body)
    {used rest : List Token}
    (hWrites : Writes (Stmt.slotsAll body) used)
    (hStops : Stops isElse rest) :
    Stops isElse (used ++ rest) := by
  cases body with
  | nil =>
      cases hWrites
      exact hStops
  | cons s others =>
      rcases hWrites.split with
        ⟨front, back, rfl, hFront, _⟩
      rcases startsItem_of_writes hCanonical.1 hFront with
        ⟨t, after, rfl, hStarts, _⟩
      rw [List.cons_append, List.cons_append, stops_cons]
      exact (excludes_of_startsItem hStarts).2

/- Written items before a closing brace are all read. -/
theorem items_complete
    {eof : Token}
    {body : List Stmt}
    (hCanonical : Stmt.CanonicalAll body)
    (hReads :
      ∀ s ∈ body,
        s.isDeclaration = false → ReadsStatement eof s)
    {used : List Token}
    (hWrites : Writes (Stmt.slotsAll body) used)
    {close : Token}
    (hClose : close.kind = .symbol .rightBrace)
    (rest : List Token) :
    (items eof (used ++ close :: rest)).val =
      ⟨body, [], close :: rest⟩ := by
  induction body generalizing used with
  | nil =>
      cases hWrites
      rw [List.nil_append, val_items_cons,
        if_pos (Token.isSymbol_iff.mpr hClose)]
  | cons s others ih =>
      rcases hCanonical with ⟨hFirst, hOthers⟩
      rcases hWrites.split with
        ⟨front, back, rfl, hFront, hBack⟩
      have hElse :
          Stops isElse (back ++ close :: rest) := by
        apply stops_else_of_writes hOthers hBack
        simp [isElse, Token.isKeyword, hClose]
      have hDeclaration :=
        declaration_complete hFirst
          (hReads s List.mem_cons_self) hFront
          (fun _ => hElse)
      have hRest :=
        ih hOthers
          (fun s hs => hReads s (List.mem_cons_of_mem _ hs))
          hBack
      rcases startsItem_of_writes hFirst hFront with
        ⟨t, after, rfl, hStarts, _⟩
      have hBrace := (excludes_of_startsItem hStarts).1
      rw [List.append_assoc, List.cons_append]
      rw [List.cons_append] at hDeclaration
      rw [val_items_cons, hBrace, hDeclaration]
      simp [hRest]

theorem readsStatement_block
    {eof : Token}
    {body : List Stmt}
    (hCanonical : Stmt.CanonicalAll body)
    (hReads :
      ∀ s ∈ body,
        s.isDeclaration = false → ReadsStatement eof s) :
    ReadsStatement eof (.block body) := by
  intro used hWrites rest _
  rcases hWrites.uncons with
    ⟨brace, inside, rfl, hBrace, hInside⟩
  rcases hInside.unsnoc with
    ⟨front, close, rfl, hFront, hClose⟩
  have hItems :=
    items_complete hCanonical hReads hFront hClose rest
  rw [List.cons_append, List.append_assoc,
    List.singleton_append, val_statement_block hBrace,
    hItems, BoundedReading.val_expect_of_kind hClose,
    Reading.map_done]
  rfl

/- Every canonical statement is read as itself. -/
theorem readsStatement
    (eof : Token)
    {s : Stmt}
    (hCanonical : s.Canonical)
    (hStatement : s.isDeclaration = false) :
    ReadsStatement eof s := by
  induction s with
  | expression value =>
      exact readsStatement_expression eof hCanonical
  | print keyword value =>
      exact readsStatement_print eof hCanonical
  | declare name initial =>
      cases hStatement
  | block body ih =>
      apply readsStatement_block hCanonical
      intro s hs
      exact ih s hs (Stmt.canonicalAll_iff.mp hCanonical s hs)
  | ifThen test thenBranch ih =>
      rcases hCanonical with ⟨hTest, hThen, hBranch⟩
      exact readsStatement_ifThen hTest (ih hThen hBranch)
  | ifElse test thenBranch elseBranch thenIH elseIH =>
      rcases hCanonical with
        ⟨hTest, ⟨hThen, hThenBranch, hClosed⟩, hElse,
          hElseBranch⟩
      exact readsStatement_ifElse hTest
        (thenIH hThen hThenBranch) hClosed
        (elseIH hElse hElseBranch)
  | whileDo test body ih =>
      rcases hCanonical with ⟨hTest, hBody, hBranch⟩
      exact readsStatement_whileDo hTest (ih hBody hBranch)
  | skipped =>
      cases hCanonical

end Parse

end OcScript

------------------------------------------------------------
-- Programs
------------------------------------------------------------

namespace OcScript

/- No canonical expression keeps an end marker. -/
theorem Expr.kind_ne_eof
    {e : Expr}
    (hCanonical : e.Canonical) :
    ∀ slot ∈ e.slots, slot.kind ≠ .eof := by
  have hOperator :
      ∀ {operator : Token},
        Parse.joinedRank? operator ≠ none →
        operator.kind ≠ .eof := by
    intro operator hJoined hKind
    simp [Parse.joinedRank?, hKind] at hJoined
  induction e with
  | literal value =>
      intro slot hSlot
      cases List.mem_singleton.mp hSlot
      cases value with
      | bool truth => cases truth <;> nofun
      | _ => nofun
  | var name =>
      intro slot hSlot
      cases List.mem_singleton.mp hSlot
      rw [Slot.kind, show name.kind = _ from hCanonical]
      nofun
  | group inner ih =>
      simp only [slots, List.mem_cons, List.mem_append,
        List.not_mem_nil, or_false]
      rintro slot (rfl | hSlot | rfl)
      · nofun
      · exact ih hCanonical slot hSlot
      · nofun
  | unary operator operand ih =>
      rcases hCanonical with ⟨hUnary, _, hOperand⟩
      simp only [slots, List.mem_cons]
      rintro slot (rfl | hSlot)
      · intro hKind
        have hKind : operator.kind = .eof := hKind
        simp [Parse.isUnaryOperator, Token.isSymbol, hKind]
          at hUnary
      · exact ih hOperand slot hSlot
  | binary left operator right leftIH rightIH =>
      rcases hCanonical with ⟨hKind, _, hLeft, hRight⟩
      simp only [slots, List.mem_append, List.mem_cons]
      rintro slot (hSlot | rfl | hSlot)
      · exact leftIH hLeft slot hSlot
      · apply hOperator
        rcases hKind with ⟨hTight, _⟩ | ⟨hAccepts, _⟩
        · rw [(Parse.isTightOperator_iff_joinedRank? _).mp
            hTight]
          nofun
        · rw [(Parse.accepts_iff_joinedRank? rfl _).mp
            hAccepts]
          nofun
      · exact rightIH hRight slot hSlot
  | logical left operator right leftIH rightIH =>
      rcases hCanonical with ⟨hKind, hLeft, hRight⟩
      simp only [slots, List.mem_append, List.mem_cons]
      rintro slot (hSlot | rfl | hSlot)
      · exact leftIH hLeft slot hSlot
      · apply hOperator
        rcases hKind with ⟨hAccepts, _⟩ | ⟨hAccepts, _⟩ <;>
        · rw [(Parse.accepts_iff_joinedRank? rfl _).mp
            hAccepts]
          nofun
      · exact rightIH hRight slot hSlot
  | assign name value ih =>
      rcases hCanonical with ⟨hName, hValue⟩
      simp only [slots, List.mem_cons]
      rintro slot (rfl | rfl | hSlot)
      · rw [Slot.kind, hName]
        nofun
      · nofun
      · exact ih hValue slot hSlot

namespace Stmt

theorem mem_slotsAll
    {slot : Slot}
    {body : List Stmt} :
    slot ∈ slotsAll body ↔ ∃ s ∈ body, slot ∈ s.slots := by
  induction body with
  | nil =>
      simp [slotsAll]
  | cons s rest ih =>
      simp [slotsAll, ih]

theorem mem_conditionSlots
    {slot : Slot}
    {condition : Expr} :
    slot ∈ conditionSlots condition ↔
      slot = .symbol .leftParen ∨ slot ∈ condition.slots ∨
        slot = .symbol .rightParen := by
  simp [conditionSlots]

/- No canonical statement keeps an end marker. -/
theorem kind_ne_eof
    {s : Stmt}
    (hCanonical : s.Canonical) :
    ∀ slot ∈ s.slots, slot.kind ≠ .eof := by
  have hCondition :
      ∀ {condition : Expr},
        condition.Canonical →
        ∀ slot ∈ conditionSlots condition,
          slot.kind ≠ .eof := by
    intro condition hCanonical slot hSlot
    rcases mem_conditionSlots.mp hSlot with
      rfl | hInner | rfl
    · nofun
    · exact Expr.kind_ne_eof hCanonical slot hInner
    · nofun
  induction s with
  | expression value =>
      simp only [slots, List.mem_append, List.mem_singleton]
      rintro slot (hSlot | rfl)
      · exact Expr.kind_ne_eof hCanonical slot hSlot
      · nofun
  | print keyword value =>
      rcases hCanonical with ⟨hKeyword, hValue⟩
      simp only [slots, List.mem_cons, List.mem_append,
        List.not_mem_nil, or_false]
      rintro slot (rfl | hSlot | rfl)
      · rw [Slot.kind, hKeyword]
        nofun
      · exact Expr.kind_ne_eof hValue slot hSlot
      · nofun
  | declare name initial =>
      cases initial with
      | none =>
          simp only [slots, List.mem_cons,
            List.not_mem_nil, or_false]
          rintro slot (rfl | rfl | rfl)
          · nofun
          · rw [Slot.kind, show name.kind = _ from hCanonical]
            nofun
          · nofun
      | some value =>
          rcases hCanonical with ⟨hName, hValue⟩
          simp only [slots, List.mem_cons, List.mem_append,
            List.not_mem_nil, or_false]
          rintro slot (rfl | rfl | rfl | hSlot | rfl)
          · nofun
          · rw [Slot.kind, hName]
            nofun
          · nofun
          · exact Expr.kind_ne_eof hValue slot hSlot
          · nofun
  | block body ih =>
      simp only [slots, List.mem_cons, List.mem_append,
        List.not_mem_nil, or_false]
      rintro slot (rfl | hSlot | rfl)
      · nofun
      · rcases mem_slotsAll.mp hSlot with ⟨s, hs, hSlot⟩
        exact ih s hs (canonicalAll_iff.mp hCanonical s hs)
          slot hSlot
      · nofun
  | ifThen test thenBranch ih =>
      rcases hCanonical with ⟨hTest, hThen, _⟩
      simp only [slots, List.mem_cons, List.mem_append]
      rintro slot (rfl | hSlot | hSlot)
      · nofun
      · exact hCondition hTest slot hSlot
      · exact ih hThen slot hSlot
  | ifElse test thenBranch elseBranch thenIH elseIH =>
      rcases hCanonical with ⟨hTest, ⟨hThen, _⟩, hElse, _⟩
      simp only [slots, List.mem_cons, List.mem_append]
      rintro slot (rfl | hSlot | hSlot | rfl | hSlot)
      · nofun
      · exact hCondition hTest slot hSlot
      · exact thenIH hThen slot hSlot
      · nofun
      · exact elseIH hElse slot hSlot
  | whileDo test body ih =>
      rcases hCanonical with ⟨hTest, hBody, _⟩
      simp only [slots, List.mem_cons, List.mem_append]
      rintro slot (rfl | hSlot | hSlot)
      · nofun
      · exact hCondition hTest slot hSlot
      · exact ih hBody slot hSlot
  | skipped =>
      cases hCanonical

end Stmt

namespace Parsed

/-
  A written body is read without errors as its program, and
  what stands behind it as on its own, unless that starts
  with an else.
-/
theorem ofBody_append_of_writes
    (eof : Token)
    {program : Program}
    (hCanonical : Stmt.CanonicalAll program)
    {tokens : List Token}
    (hWrites : Writes (Stmt.slotsAll program) tokens)
    {rest : List Token}
    (hStops : Parse.Stops Parse.isElse rest) :
    ofBody eof (tokens ++ rest) =
      ⟨program ++ (ofBody eof rest).program,
        (ofBody eof rest).errors⟩ := by
  induction program generalizing tokens with
  | nil =>
      cases hWrites
      rfl
  | cons s others ih =>
      rcases hCanonical with ⟨hFirst, hOthers⟩
      rcases hWrites.split with
        ⟨front, back, rfl, hFront, hBack⟩
      have hElse : Parse.Stops Parse.isElse (back ++ rest) :=
        Parse.stops_else_of_writes hOthers hBack hStops
      have hDeclaration :=
        Parse.declaration_complete hFirst
          (Parse.readsStatement eof hFirst) hFront
          (fun _ => hElse)
      rcases Parse.startsItem_of_writes hFirst hFront with
        ⟨t, after, rfl, _⟩
      rw [List.append_assoc, List.cons_append]
      rw [List.cons_append] at hDeclaration
      rw [ofBody_cons, hDeclaration]
      simp [ih hOthers hBack]

/- A written body is read without errors as its program. -/
theorem ofBody_complete
    (eof : Token)
    {program : Program}
    (hCanonical : Stmt.CanonicalAll program)
    {tokens : List Token}
    (hWrites : Writes (Stmt.slotsAll program) tokens) :
    ofBody eof tokens = ⟨program, []⟩ := by
  have hAlone :=
    ofBody_append_of_writes eof hCanonical hWrites
      (Parse.stops_nil _)
  rw [List.append_nil, ofBody_nil, List.append_nil] at hAlone
  exact hAlone

/- Only the tokens before the first end marker are read. -/
theorem ofTokens_append
    {body : List Token}
    (hBody : ∀ t ∈ body, t.isEof = false)
    {eof : Token}
    (hEof : eof.isEof = true)
    (after : List Token) :
    ofTokens (body ++ eof :: after) = ofBody eof body := by
  have hTake :
      (body ++ eof :: after).takeWhile
        (fun t => !t.isEof) = body := by
    rw [List.takeWhile_append_of_pos (by simpa using hBody)]
    simp [hEof]
  have hDrop :
      (body ++ eof :: after).dropWhile
        (fun t => !t.isEof) = eof :: after := by
    rw [List.dropWhile_append_of_pos (by simpa using hBody)]
    simp [hEof]
  rw [ofTokens, hTake, hDrop]
  rfl

/- The tokens of a canonical program hold no end marker. -/
theorem isEof_eq_false_of_writes
    {program : Program}
    (hCanonical : Stmt.CanonicalAll program)
    {tokens : List Token}
    (hWrites : Writes (Stmt.slotsAll program) tokens) :
    ∀ t ∈ tokens, t.isEof = false := by
  intro t ht
  have hKind : t.kind ∈ tokens.map Token.kind :=
    List.mem_map_of_mem ht
  rw [hWrites.kinds_eq] at hKind
  rcases List.mem_map.mp hKind with ⟨slot, hSlot, hEq⟩
  rcases Stmt.mem_slotsAll.mp hSlot with ⟨s, hs, hSlot⟩
  have hKept :=
    Stmt.kind_ne_eof
      (Stmt.canonicalAll_iff.mp hCanonical s hs) slot hSlot
  rw [hEq] at hKept
  simpa [Token.isEof] using hKept

/-
  The parser is complete: from any tokens that write a
  canonical program, with an end marker after them, it reads
  just that program and reports nothing.
-/
theorem ofTokens_complete
    (program : Program)
    (hCanonical : Stmt.CanonicalAll program)
    (tokens : List Token)
    (hWrites : Writes (Stmt.slotsAll program) tokens)
    (eof : Token)
    (hEof : eof.kind = .eof) :
    ofTokens (tokens ++ [eof]) = ⟨program, []⟩ := by
  have hMarker : eof.isEof = true := by
    simp [Token.isEof, hEof]
  rw [ofTokens_append
    (isEof_eq_false_of_writes hCanonical hWrites) hMarker]
  exact ofBody_complete eof hCanonical hWrites

/- The inner condition has the else. -/
def nearestElseProgram : Program :=
  [.ifThen (.var ⟨.identifier, "a", 1⟩)
    (.ifElse
      (.binary
        (.unary ⟨.symbol .bang, "!", 2⟩
          (.var ⟨.identifier, "b", 2⟩))
        ⟨.symbol .equalEqual, "==", 2⟩
        (.literal .null))
      (.print ⟨.keyword .printWord, "est", 3⟩
        (.var ⟨.identifier, "a", 3⟩))
      (.expression
        (.assign ⟨.identifier, "a", 4⟩
          (.literal (.str "c")))))]

theorem ofTokens_complete_nearestElse :
    Stmt.CanonicalAll nearestElseProgram ∧
      Writes (Stmt.slotsAll nearestElseProgram)
        nearestElse ∧
      ofTokens (nearestElse ++ [Token.atEnd 4]) =
        ⟨nearestElseProgram, []⟩ := by
  have hCanonical : Stmt.CanonicalAll nearestElseProgram := by
    decide
  have hWrites :
      Writes (Stmt.slotsAll nearestElseProgram)
        nearestElse := by
    repeat' constructor
  exact
    ⟨hCanonical, hWrites,
      ofTokens_complete _ hCanonical _ hWrites _ rfl⟩

end Parsed

end OcScript
