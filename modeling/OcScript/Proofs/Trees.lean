import OcScript.Stmt

/-
  This file holds what proofs need of expressions and
  statements as trees: induction on statements that looks
  into blocks, changing all tokens of a tree or only those
  of names, and the parts of a tree at any depth.

  Key definitions include:
    * `OcScript.Token.KeepsText`
    * `OcScript.Expr.mapTokens`
    * `OcScript.Stmt.mapTokens`
    * `OcScript.Expr.names`
    * `OcScript.Expr.assignedNames`
    * `OcScript.Expr.nameTokens`
    * `OcScript.Stmt.nameTokens`
    * `OcScript.Expr.mapNames`
    * `OcScript.Expr.parts`
    * `OcScript.Stmt.parts`
    * `OcScript.Stmt.expressions`
    * `OcScript.Stmt.assignedNames`

  Key theorems include:
    * `OcScript.Stmt.induction`
-/

------------------------------------------------------------
-- Induction on Statements
------------------------------------------------------------

namespace OcScript

namespace Stmt

/-
  Induction on statements, with one hypothesis for every
  statement of a block.
-/
@[elab_as_elim, induction_eliminator]
theorem induction
    {motive : Stmt → Prop}
    (expression : ∀ value, motive (.expression value))
    (print :
      ∀ keyword value, motive (.print keyword value))
    (declare :
      ∀ name initial, motive (.declare name initial))
    (block :
      ∀ body, (∀ s ∈ body, motive s) → motive (.block body))
    (ifThen :
      ∀ condition thenBranch,
        motive thenBranch →
        motive (.ifThen condition thenBranch))
    (ifElse :
      ∀ condition thenBranch elseBranch,
        motive thenBranch →
        motive elseBranch →
        motive (.ifElse condition thenBranch elseBranch))
    (whileDo :
      ∀ condition body,
        motive body → motive (.whileDo condition body))
    (skipped : motive .skipped)
    (s : Stmt) :
    motive s := by
  apply @Stmt.rec motive fun body => ∀ s ∈ body, motive s
  case expression => exact expression
  case print => exact print
  case declare => exact declare
  case block => exact block
  case ifThen => exact ifThen
  case ifElse => exact ifElse
  case whileDo => exact whileDo
  case skipped => exact skipped
  case nil => simp
  case cons =>
    intro first rest hFirst hRest s hs
    rcases List.mem_cons.mp hs with rfl | hs
    · exact hFirst
    · exact hRest s hs

end Stmt

end OcScript

------------------------------------------------------------
-- Tokens of Trees
------------------------------------------------------------

namespace OcScript

namespace Token

/- Kinds and lexemes stay as they are. -/
structure KeepsText
    (f : Token → Token) :
    Prop where
  kind : ∀ t, (f t).kind = t.kind
  lexeme : ∀ t, (f t).lexeme = t.lexeme

end Token

/- Change every token of an expression. -/
def Expr.mapTokens
    (f : Token → Token) :
    Expr → Expr
| .literal value => .literal value
| .group inner => .group (inner.mapTokens f)
| .unary operator operand =>
    .unary (f operator) (operand.mapTokens f)
| .binary left operator right =>
    .binary (left.mapTokens f) (f operator)
      (right.mapTokens f)
| .logical left operator right =>
    .logical (left.mapTokens f) (f operator)
      (right.mapTokens f)
| .var name => .var (f name)
| .assign name value =>
    .assign (f name) (value.mapTokens f)

namespace Stmt

mutual

/- Change every token of a statement. -/
def mapTokens
    (f : Token → Token) :
    Stmt → Stmt
| .expression value => .expression (value.mapTokens f)
| .print keyword value =>
    .print (f keyword) (value.mapTokens f)
| .declare name none => .declare (f name) none
| .declare name (some initial) =>
    .declare (f name) (some (initial.mapTokens f))
| .block body => .block (mapTokensAll f body)
| .ifThen condition thenBranch =>
    .ifThen (condition.mapTokens f) (thenBranch.mapTokens f)
| .ifElse condition thenBranch elseBranch =>
    .ifElse (condition.mapTokens f) (thenBranch.mapTokens f)
      (elseBranch.mapTokens f)
| .whileDo condition body =>
    .whileDo (condition.mapTokens f) (body.mapTokens f)
| .skipped => .skipped

/- Change every token of a list of statements. -/
def mapTokensAll
    (f : Token → Token) :
    List Stmt → List Stmt
| [] => []
| s :: rest => s.mapTokens f :: mapTokensAll f rest

end

theorem mapTokensAll_eq_map
    (f : Token → Token)
    (body : List Stmt) :
    mapTokensAll f body = body.map (mapTokens f) := by
  induction body with
  | nil =>
      rfl
  | cons s rest ih =>
      simp [mapTokensAll, ih]

end Stmt

end OcScript

------------------------------------------------------------
-- Names in Trees
------------------------------------------------------------

namespace OcScript

namespace Expr

/- The names that an expression reads or assigns. -/
def names : Expr → List String
| .literal _ => []
| .group inner => inner.names
| .unary _ operand => operand.names
| .binary left _ right => left.names ++ right.names
| .logical left _ right => left.names ++ right.names
| .var name => [name.lexeme]
| .assign name value => name.lexeme :: value.names

/- The names that an expression assigns. -/
def assignedNames : Expr → List String
| .literal _ => []
| .group inner => inner.assignedNames
| .unary _ operand => operand.assignedNames
| .binary left _ right =>
    left.assignedNames ++ right.assignedNames
| .logical left _ right =>
    left.assignedNames ++ right.assignedNames
| .var _ => []
| .assign name value => name.lexeme :: value.assignedNames

/- The tokens of the names that an expression uses. -/
def nameTokens : Expr → List Token
| .literal _ => []
| .group inner => inner.nameTokens
| .unary _ operand => operand.nameTokens
| .binary left _ right =>
    left.nameTokens ++ right.nameTokens
| .logical left _ right =>
    left.nameTokens ++ right.nameTokens
| .var name => [name]
| .assign name value => name :: value.nameTokens

/- Change the tokens of names, and keep the operators. -/
def mapNames
    (f : Token → Token) :
    Expr → Expr
| .literal value => .literal value
| .group inner => .group (inner.mapNames f)
| .unary operator operand =>
    .unary operator (operand.mapNames f)
| .binary left operator right =>
    .binary (left.mapNames f) operator (right.mapNames f)
| .logical left operator right =>
    .logical (left.mapNames f) operator (right.mapNames f)
| .var name => .var (f name)
| .assign name value =>
    .assign (f name) (value.mapNames f)

@[simp] theorem mapNames_id
    (e : Expr) :
    e.mapNames id = e := by
  induction e <;> simp [mapNames, *]

end Expr

namespace Stmt

mutual

/- The tokens of the names that a statement uses. -/
def nameTokens : Stmt → List Token
| .expression value => value.nameTokens
| .print _ value => value.nameTokens
| .declare name none => [name]
| .declare name (some initial) =>
    name :: initial.nameTokens
| .block body => nameTokensAll body
| .ifThen condition thenBranch =>
    condition.nameTokens ++ thenBranch.nameTokens
| .ifElse condition thenBranch elseBranch =>
    condition.nameTokens ++
      (thenBranch.nameTokens ++ elseBranch.nameTokens)
| .whileDo condition body =>
    condition.nameTokens ++ body.nameTokens
| .skipped => []

/- The tokens of the names that statements use. -/
def nameTokensAll : List Stmt → List Token
| [] => []
| s :: rest => s.nameTokens ++ nameTokensAll rest

end

theorem mem_nameTokensAll
    {body : List Stmt}
    {t : Token} :
    t ∈ nameTokensAll body ↔
      ∃ s ∈ body, t ∈ s.nameTokens := by
  induction body with
  | nil =>
      simp [nameTokensAll]
  | cons s rest ih =>
      simp [nameTokensAll, ih]

end Stmt

end OcScript

------------------------------------------------------------
-- Parts of Trees
------------------------------------------------------------

namespace OcScript

/- An expression and all expressions inside it. -/
def Expr.parts : Expr → List Expr
| .literal value => [.literal value]
| .group inner => .group inner :: inner.parts
| .unary operator operand =>
    .unary operator operand :: operand.parts
| .binary left operator right =>
    .binary left operator right ::
      (left.parts ++ right.parts)
| .logical left operator right =>
    .logical left operator right ::
      (left.parts ++ right.parts)
| .var name => [.var name]
| .assign name value => .assign name value :: value.parts

namespace Stmt

mutual

/- A statement and all statements inside it. -/
def parts : Stmt → List Stmt
| .expression value => [.expression value]
| .print keyword value => [.print keyword value]
| .declare name initial => [.declare name initial]
| .block body => .block body :: partsAll body
| .ifThen condition thenBranch =>
    .ifThen condition thenBranch :: thenBranch.parts
| .ifElse condition thenBranch elseBranch =>
    .ifElse condition thenBranch elseBranch ::
      (thenBranch.parts ++ elseBranch.parts)
| .whileDo condition body =>
    .whileDo condition body :: body.parts
| .skipped => [.skipped]

/- All statements in a list, at any depth. -/
def partsAll : List Stmt → List Stmt
| [] => []
| s :: rest => s.parts ++ partsAll rest

end

/- The expressions that stand in a statement itself. -/
def expressions : Stmt → List Expr
| .expression value => [value]
| .print _ value => [value]
| .declare _ none => []
| .declare _ (some initial) => [initial]
| .block _ => []
| .ifThen condition _ => [condition]
| .ifElse condition _ _ => [condition]
| .whileDo condition _ => [condition]
| .skipped => []

theorem partsAll_eq_flatMap
    (body : List Stmt) :
    partsAll body = body.flatMap parts := by
  induction body with
  | nil =>
      rfl
  | cons s rest ih =>
      rw [partsAll, ih, List.flatMap_cons]

/- The parts of a member are parts of the list. -/
theorem parts_subset_partsAll
    {s : Stmt}
    {body : List Stmt}
    (hMem : s ∈ body) :
    s.parts ⊆ partsAll body := by
  intro part hPart
  rw [partsAll_eq_flatMap]
  exact List.mem_flatMap.mpr ⟨s, hMem, hPart⟩

/- The names that statements assign, at any depth. -/
def assignedNames
    (body : List Stmt) :
    List String :=
  (partsAll body).flatMap fun s =>
    s.expressions.flatMap Expr.assignedNames

/- What an expression of a part assigns is assigned. -/
theorem assignedNames_subset
    {body : List Stmt}
    {s : Stmt}
    (hPart : s ∈ partsAll body)
    {e : Expr}
    (hMem : e ∈ s.expressions) :
    e.assignedNames ⊆ assignedNames body := by
  intro name hName
  refine List.mem_flatMap.mpr ⟨s, hPart, ?_⟩
  exact List.mem_flatMap.mpr ⟨e, hMem, hName⟩

end Stmt

end OcScript
