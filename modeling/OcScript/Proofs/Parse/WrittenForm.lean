import Mathlib.Data.List.Forall2
import OcScript.Proofs.Parse.FlatComparison

/-
  This file says how programs are written as tokens and
  which programs the grammar can write.

  A tree keeps some of its tokens and drops the others, of
  which only the kinds matter.  So a program is written as a
  list of slots, each of which is filled by one kept token
  or by any token of a kind.  A program is canonical if it
  groups its parts in the way the grammar groups them.

  Key definitions include:
    * `OcScript.Slot`
    * `OcScript.Expr.slots`
    * `OcScript.Stmt.slots`
    * `OcScript.Writes`
    * `OcScript.Rank`
    * `OcScript.Expr.Canonical`
    * `OcScript.Stmt.Canonical`

  Key theorems include:
    * `OcScript.Writes.split`
    * `OcScript.Writes.kinds_eq`
-/

------------------------------------------------------------
-- Slots
------------------------------------------------------------

namespace OcScript

/-
  The place of a token in a written program: it takes either
  the very token that the tree keeps or any token of a kind.
-/
inductive Slot where
| kept (token : Token)
| ofKind (kind : TokenKind)
deriving DecidableEq, Repr

namespace Slot

/- The kind of the tokens that fill a slot. -/
def kind : Slot → TokenKind
| kept token => token.kind
| ofKind kind => kind

/- A token fills a slot. -/
def Fits : Slot → Token → Prop
| kept token, t => t = token
| ofKind kind, t => t.kind = kind

instance decidableFits
    (slot : Slot)
    (t : Token) :
    Decidable (slot.Fits t) :=
  match slot with
  | kept token => inferInstanceAs (Decidable (t = token))
  | ofKind kind => inferInstanceAs (Decidable (t.kind = kind))

theorem Fits.kind_eq
    {slot : Slot}
    {t : Token}
    (hFits : slot.Fits t) :
    t.kind = slot.kind := by
  cases slot with
  | kept token =>
      exact congrArg Token.kind hFits
  | ofKind kind =>
      exact hFits

/- The slot of a symbol. -/
def symbol
    (s : Symbol) :
    Slot :=
  ofKind (.symbol s)

/- The slot of a keyword. -/
def keyword
    (k : Keyword) :
    Slot :=
  ofKind (.keyword k)

end Slot

/- Tokens fill the slots of a written program. -/
abbrev Writes
    (slots : List Slot)
    (tokens : List Token) : Prop :=
  List.Forall₂ Slot.Fits slots tokens

namespace Writes

/- Written parts are put side by side. -/
theorem append
    {first second : List Slot}
    {front back : List Token}
    (hFirst : Writes first front)
    (hSecond : Writes second back) :
    Writes (first ++ second) (front ++ back) :=
  List.rel_append hFirst hSecond

theorem symbol
    {s : Symbol}
    {t : Token}
    (hKind : t.kind = .symbol s) :
    Writes [.symbol s] [t] :=
  .cons hKind .nil

/- What is written in two parts falls into two parts. -/
theorem split
    {first second : List Slot}
    {tokens : List Token}
    (hWrites : Writes (first ++ second) tokens) :
    ∃ front back,
      tokens = front ++ back ∧
        Writes first front ∧ Writes second back := by
  induction first generalizing tokens with
  | nil =>
      exact ⟨[], tokens, rfl, .nil, hWrites⟩
  | cons slot slots ih =>
      cases hWrites with
      | cons hFits hRest =>
          rcases ih hRest with
            ⟨front, back, rfl, hFront, hBack⟩
          exact
            ⟨_ :: front, back, rfl, .cons hFits hFront,
              hBack⟩

/- What starts with a slot starts with its token. -/
theorem uncons
    {slot : Slot}
    {slots : List Slot}
    {tokens : List Token}
    (hWrites : Writes (slot :: slots) tokens) :
    ∃ t rest,
      tokens = t :: rest ∧
        slot.Fits t ∧ Writes slots rest := by
  cases hWrites with
  | cons hFits hRest =>
      exact ⟨_, _, rfl, hFits, hRest⟩

/- What ends with a slot ends with its token. -/
theorem unsnoc
    {slots : List Slot}
    {slot : Slot}
    {tokens : List Token}
    (hWrites : Writes (slots ++ [slot]) tokens) :
    ∃ front t,
      tokens = front ++ [t] ∧
        Writes slots front ∧ slot.Fits t := by
  rcases hWrites.split with
    ⟨front, back, rfl, hFront, hBack⟩
  cases hBack with
  | cons hFits hNil =>
      cases hNil
      exact ⟨front, _, rfl, hFront, hFits⟩

/- The tokens have the kinds of the slots. -/
theorem kinds_eq
    {slots : List Slot}
    {tokens : List Token}
    (hWrites : Writes slots tokens) :
    tokens.map Token.kind = slots.map Slot.kind := by
  induction hWrites with
  | nil =>
      rfl
  | cons hFits _ ih =>
      rw [List.map_cons, List.map_cons, hFits.kind_eq, ih]

end Writes

end OcScript

------------------------------------------------------------
-- Written Expressions and Statements
------------------------------------------------------------

namespace OcScript

/- The kind of the token that denotes a value. -/
def Value.literalKind : Value → TokenKind
| .str s => .string s
| .num x => .number x
| .bool true => .keyword .trueWord
| .bool false => .keyword .falseWord
| .null => .keyword .nilWord

/- How an expression is written. -/
def Expr.slots : Expr → List Slot
| .literal value => [.ofKind value.literalKind]
| .group inner =>
    .symbol .leftParen ::
      (inner.slots ++ [.symbol .rightParen])
| .unary operator operand => .kept operator :: operand.slots
| .binary left operator right =>
    left.slots ++ .kept operator :: right.slots
| .logical left operator right =>
    left.slots ++ .kept operator :: right.slots
| .var name => [.kept name]
| .assign name value =>
    .kept name :: .symbol .equal :: value.slots

namespace Stmt

/- How a condition is written, after its keyword. -/
def conditionSlots
    (condition : Expr) :
    List Slot :=
  .symbol .leftParen ::
    (condition.slots ++ [.symbol .rightParen])

mutual

/- How a statement is written. -/
def slots : Stmt → List Slot
| .expression value => value.slots ++ [.symbol .semicolon]
| .print keyword value =>
    .kept keyword :: (value.slots ++ [.symbol .semicolon])
| .declare name none =>
    [.keyword .varWord, .kept name, .symbol .semicolon]
| .declare name (some initial) =>
    .keyword .varWord :: .kept name :: .symbol .equal ::
      (initial.slots ++ [.symbol .semicolon])
| .block body =>
    .symbol .leftBrace ::
      (slotsAll body ++ [.symbol .rightBrace])
| .ifThen condition thenBranch =>
    .keyword .ifWord ::
      (conditionSlots condition ++ thenBranch.slots)
| .ifElse condition thenBranch elseBranch =>
    .keyword .ifWord ::
      (conditionSlots condition ++ (thenBranch.slots ++
        .keyword .elseWord :: elseBranch.slots))
| .whileDo condition body =>
    .keyword .whileWord ::
      (conditionSlots condition ++ body.slots)
| .skipped => []

/- How statements are written in order. -/
def slotsAll : List Stmt → List Slot
| [] => []
| s :: rest => s.slots ++ slotsAll rest

end

theorem slotsAll_append
    (front back : List Stmt) :
    slotsAll (front ++ back) =
      slotsAll front ++ slotsAll back := by
  induction front with
  | nil =>
      rfl
  | cons s rest ih =>
      simp [slotsAll, ih]

end Stmt

end OcScript

------------------------------------------------------------
-- Canonical Expressions
------------------------------------------------------------

namespace OcScript

/-
  How loosely an expression binds at its root, the tightest
  first.
-/
inductive Rank where
| primary
| comparison
| equality
| conjunction
| disjunction
| assignment
deriving DecidableEq, Repr

namespace Rank

/- How far a rank is from the tightest one. -/
def height : Rank → Nat
| primary => 0
| comparison => 1
| equality => 2
| conjunction => 3
| disjunction => 4
| assignment => 5

instance : LE Rank :=
  ⟨fun tight loose => tight.height ≤ loose.height⟩

instance decidableLE
    (tight loose : Rank) :
    Decidable (tight ≤ loose) :=
  inferInstanceAs (Decidable (tight.height ≤ loose.height))

theorem le_def
    {tight loose : Rank} :
    tight ≤ loose ↔ tight.height ≤ loose.height :=
  Iff.rfl

theorem le_refl
    (rank : Rank) :
    rank ≤ rank :=
  Nat.le_refl _

theorem le_assignment
    (rank : Rank) :
    rank ≤ .assignment := by
  cases rank <;> decide

theorem height_injective
    {first second : Rank}
    (hHeight : first.height = second.height) :
    first = second := by
  cases first <;> cases second <;>
    first | rfl | cases hHeight

theorem le_trans
    {tight middle loose : Rank}
    (hTight : tight ≤ middle)
    (hLoose : middle ≤ loose) :
    tight ≤ loose :=
  Nat.le_trans hTight hLoose

end Rank

namespace Expr

open Parse (isUnaryOperator isTightOperator)

/- The rank of an expression. -/
def rank : Expr → Rank
| .literal _ => .primary
| .group _ => .primary
| .var _ => .primary
| .unary _ _ => .comparison
| .binary _ operator _ =>
    if Level.equality.accepts operator then
      .equality
    else
      .comparison
| .logical _ operator _ =>
    if Level.conjunction.accepts operator then
      .conjunction
    else
      .disjunction
| .assign _ _ => .assignment

/-
  The expression is grouped as the grammar groups it.  The
  tight operators take a primary expression on the left and
  a comparison on the right; the looser ones group to the
  left.  Every other grouping is written with parentheses.
-/
def Canonical : Expr → Prop
| .literal _ => True
| .group inner => inner.Canonical
| .unary operator operand =>
    isUnaryOperator operator = true ∧
      operand.rank ≤ .comparison ∧ operand.Canonical
| .binary left operator right =>
    (isTightOperator operator = true ∧
        left.rank ≤ .primary ∨
      Level.equality.accepts operator = true ∧
        left.rank ≤ .equality) ∧
      right.rank ≤ .comparison ∧
      left.Canonical ∧ right.Canonical
| .logical left operator right =>
    (Level.conjunction.accepts operator = true ∧
        left.rank ≤ .conjunction ∧
        right.rank ≤ .equality ∨
      Level.disjunction.accepts operator = true ∧
        left.rank ≤ .disjunction ∧
        right.rank ≤ .conjunction) ∧
      left.Canonical ∧ right.Canonical
| .var name => name.kind = .identifier
| .assign name value =>
    name.kind = .identifier ∧ value.Canonical

instance decidableCanonical :
    (e : Expr) → Decidable e.Canonical
| .literal _ => .isTrue trivial
| .group inner => decidableCanonical inner
| .unary _ operand =>
    have := decidableCanonical operand
    inferInstanceAs (Decidable (_ ∧ _ ∧ _))
| .binary left _ right =>
    have := decidableCanonical left
    have := decidableCanonical right
    inferInstanceAs (Decidable ((_ ∧ _ ∨ _ ∧ _) ∧ _ ∧ _ ∧ _))
| .logical left _ right =>
    have := decidableCanonical left
    have := decidableCanonical right
    inferInstanceAs
      (Decidable ((_ ∧ _ ∧ _ ∨ _ ∧ _ ∧ _) ∧ _ ∧ _))
| .var name =>
    inferInstanceAs (Decidable (name.kind = .identifier))
| .assign _ value =>
    have := decidableCanonical value
    inferInstanceAs (Decidable (_ ∧ _))

end Expr

end OcScript

------------------------------------------------------------
-- Canonical Statements
------------------------------------------------------------

namespace OcScript

namespace Stmt

/- The statement declares a variable. -/
def isDeclaration : Stmt → Bool
| .declare _ _ => true
| _ => false

/-
  The statement ends in a condition without an else branch,
  so that an else after it would belong to it.
-/
def endsOpen : Stmt → Bool
| .ifThen _ _ => true
| .ifElse _ _ elseBranch => elseBranch.endsOpen
| .whileDo _ body => body.endsOpen
| _ => false

mutual

/-
  The statement is one the grammar can write: nothing was
  skipped, no branch is a bare declaration, and every else
  belongs to the nearest condition.
-/
def Canonical : Stmt → Prop
| .expression value => value.Canonical
| .print keyword value =>
    keyword.kind = .keyword .printWord ∧ value.Canonical
| .declare name none => name.kind = .identifier
| .declare name (some initial) =>
    name.kind = .identifier ∧ initial.Canonical
| .block body => CanonicalAll body
| .ifThen condition thenBranch =>
    condition.Canonical ∧ thenBranch.Canonical ∧
      thenBranch.isDeclaration = false
| .ifElse condition thenBranch elseBranch =>
    condition.Canonical ∧
      (thenBranch.Canonical ∧
        thenBranch.isDeclaration = false ∧
        thenBranch.endsOpen = false) ∧
      elseBranch.Canonical ∧
      elseBranch.isDeclaration = false
| .whileDo condition body =>
    condition.Canonical ∧ body.Canonical ∧
      body.isDeclaration = false
| .skipped => False

/- Every statement of a list is canonical. -/
def CanonicalAll : List Stmt → Prop
| [] => True
| s :: rest => s.Canonical ∧ CanonicalAll rest

end

mutual

instance decidableCanonical :
    (s : Stmt) → Decidable s.Canonical
| .expression value => value.decidableCanonical
| .print _ value =>
    have := value.decidableCanonical
    inferInstanceAs (Decidable (_ ∧ _))
| .declare name none =>
    inferInstanceAs (Decidable (name.kind = .identifier))
| .declare _ (some initial) =>
    have := initial.decidableCanonical
    inferInstanceAs (Decidable (_ ∧ _))
| .block body => decidableCanonicalAll body
| .ifThen condition thenBranch =>
    have := condition.decidableCanonical
    have := decidableCanonical thenBranch
    inferInstanceAs (Decidable (_ ∧ _ ∧ _))
| .ifElse condition thenBranch elseBranch =>
    have := condition.decidableCanonical
    have := decidableCanonical thenBranch
    have := decidableCanonical elseBranch
    inferInstanceAs (Decidable (_ ∧ (_ ∧ _ ∧ _) ∧ _ ∧ _))
| .whileDo condition body =>
    have := condition.decidableCanonical
    have := decidableCanonical body
    inferInstanceAs (Decidable (_ ∧ _ ∧ _))
| .skipped => .isFalse id

instance decidableCanonicalAll :
    (body : List Stmt) → Decidable (CanonicalAll body)
| [] => .isTrue trivial
| s :: rest =>
    have := decidableCanonical s
    have := decidableCanonicalAll rest
    inferInstanceAs (Decidable (_ ∧ _))

end

theorem canonicalAll_iff
    {body : List Stmt} :
    CanonicalAll body ↔ ∀ s ∈ body, s.Canonical := by
  induction body with
  | nil =>
      simp [CanonicalAll]
  | cons s rest ih =>
      simp [CanonicalAll, ih]

end Stmt

end OcScript
