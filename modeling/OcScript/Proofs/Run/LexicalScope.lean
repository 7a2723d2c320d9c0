import OcScript.Proofs.Exec.ScopeNames
import OcScript.Proofs.Run.Accepted

/-
  This file proves that a lexically scoped program never
  misses a name.

  In front of a use of a name there are statements: in each
  of the lists that the use stands in, one inside of the
  other, those that come earlier.  A program is lexically
  scoped if every name it uses is known from the start or
  declared by one of these statements.  The condition does
  not ask which branches are taken, how often a loop turns,
  or what is declared anew in between.

  An execution keeps in sight what it started with: names
  are declared and assigned but never removed, and a block
  takes away no more than the frame it brought.  So what was
  declared in front of a use is found when the use is
  reached, in the first turn of a loop and in every later
  one.

  Key definitions include:
    * `OcScript.Stmt.Uses`
    * `OcScript.Stmt.UsesAll`
    * `OcScript.Stmt.Scoped`
    * `OcScript.Stmt.ScopedAll`
    * `OcScript.LeadsTo`
    * `OcScript.Scopes.Sees`
    * `OcScript.Execution.Finds`

  Key theorems include:
    * `OcScript.Stmt.scopedAll_cons_iff`
    * `OcScript.Expr.leadsTo_eval`
    * `OcScript.Execution.Finds.inNewScope`
    * `OcScript.Stmt.finds_exec`
    * `OcScript.Stmt.finds_execAll`
    * `OcScript.Run.scoped_program_misses_no_name`
-/

------------------------------------------------------------
-- Uses of Names
------------------------------------------------------------

namespace OcScript

namespace Stmt

mutual

/-
  The statement uses a name in a place that has the
  statements `earlier` in front of it: those that come
  earlier in the lists inside of the statement that the
  place is in.
-/
inductive Uses : Stmt → List Stmt → String → Prop where
| here
    {s : Stmt}
    {e : Expr}
    {name : String}
    (hExpression : e ∈ s.expressions)
    (hName : name ∈ e.names) :
    Uses s [] name
| block
    {body earlier : List Stmt}
    {name : String}
    (hBody : UsesAll body earlier name) :
    Uses (.block body) earlier name
| ifThen
    {condition : Expr}
    {thenBranch : Stmt}
    {earlier : List Stmt}
    {name : String}
    (hThen : Uses thenBranch earlier name) :
    Uses (.ifThen condition thenBranch) earlier name
| thenBranch
    {condition : Expr}
    {thenBranch elseBranch : Stmt}
    {earlier : List Stmt}
    {name : String}
    (hThen : Uses thenBranch earlier name) :
    Uses (.ifElse condition thenBranch elseBranch)
      earlier name
| elseBranch
    {condition : Expr}
    {thenBranch elseBranch : Stmt}
    {earlier : List Stmt}
    {name : String}
    (hElse : Uses elseBranch earlier name) :
    Uses (.ifElse condition thenBranch elseBranch)
      earlier name
| whileDo
    {condition : Expr}
    {body : Stmt}
    {earlier : List Stmt}
    {name : String}
    (hBody : Uses body earlier name) :
    Uses (.whileDo condition body) earlier name

/-
  A member of the list uses a name.  The members before it
  are in front of the place, too; it is not itself.
-/
inductive UsesAll :
    List Stmt → List Stmt → String → Prop where
| member
    {s : Stmt}
    {inner : List Stmt}
    {name : String}
    (front back : List Stmt)
    (hMember : Uses s inner name) :
    UsesAll (front ++ s :: back) (front ++ inner) name

end

/-
  Every name that the statement uses is known, or declared
  by a statement in front of the place where it is used.
-/
def Scoped
    (known : Set String)
    (s : Stmt) :
    Prop :=
  ∀ earlier name,
    s.Uses earlier name →
    name ∈ known ∨ name ∈ declaredNames earlier

/- The same of all statements of a list. -/
def ScopedAll
    (known : Set String)
    (body : List Stmt) :
    Prop :=
  ∀ earlier name,
    UsesAll body earlier name →
    name ∈ known ∨ name ∈ declaredNames earlier

end Stmt

end OcScript

------------------------------------------------------------
-- Lexical Scoping Along a Tree
------------------------------------------------------------

namespace OcScript

namespace Stmt

variable {known : Set String}

/- The names in the expressions of a statement are known. -/
theorem Scoped.mem_known
    {s : Stmt}
    (hScoped : s.Scoped known)
    {e : Expr}
    (hExpression : e ∈ s.expressions)
    {name : String}
    (hName : name ∈ e.names) :
    name ∈ known := by
  rcases hScoped [] name (.here hExpression hName) with
    hKnown | hDeclared
  · exact hKnown
  · rw [declaredNames_nil] at hDeclared
    cases hDeclared

/-
  A statement without statements inside of it is scoped if
  the names in its expressions are known.
-/
theorem scoped_iff_of_uses
    {s : Stmt}
    (hUses :
      ∀ earlier name,
        s.Uses earlier name →
        ∃ e ∈ s.expressions, name ∈ e.names) :
    s.Scoped known ↔
      ∀ e ∈ s.expressions, ∀ name ∈ e.names,
        name ∈ known := by
  refine ⟨?_, ?_⟩
  · intro hScoped e hExpression name hName
    exact hScoped.mem_known hExpression hName
  · intro hKnown earlier name hUse
    rcases hUses earlier name hUse with
      ⟨e, hExpression, hName⟩
    exact .inl (hKnown e hExpression name hName)

@[simp] theorem scoped_expression_iff
    (value : Expr) :
    (expression value).Scoped known ↔
      ∀ name ∈ value.names, name ∈ known := by
  rw [scoped_iff_of_uses]
  · simp only [expressions, List.forall_mem_singleton]
  · rintro _ name ⟨hExpression, hName⟩
    exact ⟨_, hExpression, hName⟩

@[simp] theorem scoped_print_iff
    (keyword : Token)
    (value : Expr) :
    (print keyword value).Scoped known ↔
      ∀ name ∈ value.names, name ∈ known := by
  rw [scoped_iff_of_uses]
  · simp only [expressions, List.forall_mem_singleton]
  · rintro _ name ⟨hExpression, hName⟩
    exact ⟨_, hExpression, hName⟩

/- The name that is declared is not yet known in its value. -/
@[simp] theorem scoped_declare_iff
    (name : Token)
    (initial : Option Expr) :
    (declare name initial).Scoped known ↔
      ∀ value ∈ initial, ∀ name ∈ value.names,
        name ∈ known := by
  rw [scoped_iff_of_uses]
  · cases initial <;> simp [expressions]
  · rintro _ name ⟨hExpression, hName⟩
    exact ⟨_, hExpression, hName⟩

@[simp] theorem scoped_block_iff
    (body : List Stmt) :
    (block body).Scoped known ↔ ScopedAll known body := by
  refine ⟨?_, ?_⟩
  · intro hScoped earlier name hUses
    exact hScoped earlier name (.block hUses)
  · rintro hScoped earlier name (hHere | hBody)
    · cases hHere
    · exact hScoped earlier name hBody

@[simp] theorem scoped_ifThen_iff
    (condition : Expr)
    (thenBranch : Stmt) :
    (ifThen condition thenBranch).Scoped known ↔
      (∀ name ∈ condition.names, name ∈ known) ∧
        thenBranch.Scoped known := by
  refine ⟨?_, ?_⟩
  · intro hScoped
    refine ⟨?_, ?_⟩
    · intro name
      exact hScoped.mem_known (List.mem_singleton_self _)
    · intro earlier name hUses
      exact hScoped earlier name (.ifThen hUses)
  · rintro ⟨hCondition, hThen⟩ earlier name hUses
    cases hUses with
    | here hExpression hName =>
        rw [List.mem_singleton.mp hExpression] at hName
        exact .inl (hCondition name hName)
    | ifThen hUses =>
        exact hThen earlier name hUses

@[simp] theorem scoped_ifElse_iff
    (condition : Expr)
    (thenBranch elseBranch : Stmt) :
    (ifElse condition thenBranch elseBranch).Scoped known ↔
      (∀ name ∈ condition.names, name ∈ known) ∧
        thenBranch.Scoped known ∧
        elseBranch.Scoped known := by
  refine ⟨?_, ?_⟩
  · intro hScoped
    refine ⟨?_, ?_, ?_⟩
    · intro name
      exact hScoped.mem_known (List.mem_singleton_self _)
    · intro earlier name hUses
      exact hScoped earlier name (.thenBranch hUses)
    · intro earlier name hUses
      exact hScoped earlier name (.elseBranch hUses)
  · rintro ⟨hCondition, hThen, hElse⟩ earlier name hUses
    cases hUses with
    | here hExpression hName =>
        rw [List.mem_singleton.mp hExpression] at hName
        exact .inl (hCondition name hName)
    | thenBranch hUses =>
        exact hThen earlier name hUses
    | elseBranch hUses =>
        exact hElse earlier name hUses

@[simp] theorem scoped_whileDo_iff
    (condition : Expr)
    (body : Stmt) :
    (whileDo condition body).Scoped known ↔
      (∀ name ∈ condition.names, name ∈ known) ∧
        body.Scoped known := by
  refine ⟨?_, ?_⟩
  · intro hScoped
    refine ⟨?_, ?_⟩
    · intro name
      exact hScoped.mem_known (List.mem_singleton_self _)
    · intro earlier name hUses
      exact hScoped earlier name (.whileDo hUses)
  · rintro ⟨hCondition, hBody⟩ earlier name hUses
    cases hUses with
    | here hExpression hName =>
        rw [List.mem_singleton.mp hExpression] at hName
        exact .inl (hCondition name hName)
    | whileDo hUses =>
        exact hBody earlier name hUses

@[simp] theorem scopedAll_nil :
    ScopedAll known [] := by
  intro earlier name hUses
  generalize hBody : ([] : List Stmt) = body at hUses
  rcases hUses with ⟨front, back, -⟩
  simp at hBody

/- What a statement declares is known to those after it. -/
@[simp] theorem scopedAll_cons_iff
    (s : Stmt)
    (rest : List Stmt) :
    ScopedAll known (s :: rest) ↔
      s.Scoped known ∧
        ScopedAll (known ∪ declaredNames [s]) rest := by
  refine ⟨?_, ?_⟩
  · intro hScoped
    refine ⟨?_, ?_⟩
    · intro earlier name hUses
      exact hScoped earlier name (.member [] rest hUses)
    · rintro _ name ⟨front, back, hUses⟩
      have hMember :=
        hScoped _ name (.member (s :: front) back hUses)
      rw [List.cons_append, declaredNames_cons] at hMember
      rw [Set.mem_union, or_assoc]
      exact hMember
  · rintro ⟨hFirst, hRest⟩ earlier name hUses
    generalize hBody : s :: rest = body at hUses
    rcases hUses with ⟨front, back, hUses⟩
    cases front with
    | nil =>
        rcases List.cons.inj hBody with ⟨rfl, rfl⟩
        exact hFirst _ name hUses
    | cons first front =>
        rcases List.cons.inj hBody with ⟨rfl, rfl⟩
        have hMember :=
          hRest _ name (.member front back hUses)
        rw [Set.mem_union, or_assoc] at hMember
        rw [List.cons_append, declaredNames_cons]
        exact hMember

end Stmt

end OcScript

------------------------------------------------------------
-- Computations That Lead to a State
------------------------------------------------------------

namespace OcScript

/-
  From a state in `P`, the computation ends in a state in
  `Q`, or fails with an error in `E`.
-/
def LeadsTo
    {ε σ α : Type}
    (P Q : σ → Prop)
    (E : ε → Prop)
    (x : EStateM ε σ α) :
    Prop :=
  ∀ s,
    P s →
    match x s with
    | .ok _ after => Q after
    | .error error _ => E error

namespace LeadsTo

variable {ε σ α β : Type}
variable {P Q R : σ → Prop}
variable {E : ε → Prop}

theorem pure
    (a : α) :
    LeadsTo P P E (pure a : EStateM ε σ α) := by
  intro s hStart
  exact hStart

theorem ofExcept
    {x : Except ε α}
    (hErrors : ∀ error, x = .error error → E error) :
    LeadsTo P P E (ofExcept x : EStateM ε σ α) := by
  intro s hStart
  cases x with
  | ok a =>
      exact hStart
  | error error =>
      exact hErrors error rfl

/- What comes next starts in the states that are reached. -/
theorem bind
    {x : EStateM ε σ α}
    {k : α → EStateM ε σ β}
    (hFirst : LeadsTo P Q E x)
    (hRest : ∀ a, LeadsTo Q R E (k a)) :
    LeadsTo P R E (x >>= k) := by
  intro s hStart
  have hBetween := hFirst s hStart
  simp only [Bind.bind, EStateM.bind]
  cases hResult : x s with
  | ok a between =>
      rw [hResult] at hBetween
      exact hRest a between hBetween
  | error error between =>
      rw [hResult] at hBetween
      exact hBetween

theorem map
    {x : EStateM ε σ α}
    (hFirst : LeadsTo P Q E x)
    (g : α → β) :
    LeadsTo P Q E (g <$> x) := by
  rw [map_eq_pure_bind]
  apply hFirst.bind
  intro a
  exact LeadsTo.pure (g a)

/- Other states may be reached than those that are. -/
theorem mono
    {x : EStateM ε σ α}
    (hFirst : LeadsTo P Q E x)
    (hMore : ∀ s, Q s → R s) :
    LeadsTo P R E x := by
  intro s hStart
  have hEnd := hFirst s hStart
  cases hResult : x s with
  | ok a after =>
      rw [hResult] at hEnd
      exact hMore after hEnd
  | error error after =>
      rw [hResult] at hEnd
      exact hEnd

end LeadsTo

end OcScript

------------------------------------------------------------
-- Names in Sight
------------------------------------------------------------

namespace OcScript

namespace RuntimeError

/- The error is not about a name that was not found. -/
def MissesNoName
    (e : RuntimeError) :
    Prop :=
  e.cause ≠ .undefinedVariable

/- Errors of operators are not about names. -/
theorem IsOfOperation.missesNoName
    {e : RuntimeError}
    (hOperation : e.IsOfOperation) :
    e.MissesNoName := by
  intro hCause
  rw [IsOfOperation, hCause] at hOperation
  simp at hOperation

end RuntimeError

namespace Scopes

/- All of these names are bound in one of the frames. -/
def Sees
    (known : Set String)
    (scopes : Scopes) :
    Prop :=
  ∀ name ∈ known, (scopes.get? name).isSome = true

namespace Sees

variable {known more : Set String}
variable {scopes : Scopes}

theorem mono
    (hSees : Sees more scopes)
    (hFewer : known ⊆ more) :
    Sees known scopes :=
  fun name hKnown => hSees name (hFewer hKnown)

/- All names are in sight that were, in a new scope, too. -/
theorem enter
    (hSees : Sees known scopes) :
    Sees known scopes.enter := by
  intro name hKnown
  rw [get?_enter]
  exact hSees name hKnown

/- A name is in sight when it has been declared. -/
theorem declare
    (hSees : Sees known scopes)
    (name : String)
    (value : Value) :
    Sees (known ∪ {name}) (scopes.declare name value) := by
  intro other hOther
  rw [get?_declare]
  split
  · rfl
  · rename_i hName
    rcases hOther with hKnown | hSame
    · exact hSees other hKnown
    · exact absurd hSame.symm hName

theorem assign?
    (hSees : Sees known scopes)
    {name : String}
    {value : Value}
    {assigned : Scopes}
    (hAssigned :
      scopes.assign? name value = some assigned) :
    Sees known assigned := by
  intro other hKnown
  rw [get?_of_assign? hAssigned]
  split
  · rfl
  · exact hSees other hKnown

end Sees

/- Frames that bind the same names show the same names. -/
theorem isSome_get?_of_sameNames
    {before after : Scopes}
    (hNames : before.SameNames after)
    (name : String) :
    (after.get? name).isSome =
      (before.get? name).isSome := by
  induction hNames with
  | nil =>
      rfl
  | @cons frame other outer others hFrame _ ih =>
      have hBound := hFrame name
      simp only [Std.ExtTreeMap.mem_iff_isSome_getElem?]
        at hBound
      rw [get?, get?]
      cases hFirst : frame[name]? with
      | some value =>
          rw [hFirst, Option.isSome_some, eq_self,
            iff_true, Option.isSome_iff_exists] at hBound
          rcases hBound with ⟨changed, hOther⟩
          rw [hOther]
          rfl
      | none =>
          rw [hFirst, Option.isSome_none, Bool.false_eq_true,
            iff_false, Bool.not_eq_true,
            Option.isSome_eq_false_iff,
            Option.isNone_iff_eq_none] at hBound
          rw [hBound]
          exact ih

theorem Sees.of_sameNames
    {known : Set String}
    {before after : Scopes}
    (hSees : Sees known before)
    (hNames : before.SameNames after) :
    Sees known after := by
  intro name hKnown
  rw [isSome_get?_of_sameNames hNames]
  exact hSees name hKnown

end Scopes

end OcScript

------------------------------------------------------------
-- Expressions Find Their Names
------------------------------------------------------------

namespace OcScript

open RuntimeError (MissesNoName)
open Scopes (Sees)

variable {known : Set String}

namespace Evaluation

theorem leadsTo_read
    {name : Token}
    (hKnown : name.lexeme ∈ known) :
    LeadsTo (Sees known) (Sees known) MissesNoName
      (read name) := by
  intro scopes hSees
  have hSome := hSees name.lexeme hKnown
  rw [Option.isSome_iff_exists] at hSome
  rcases hSome with ⟨value, hValue⟩
  simp only [read, Scopes.read, hValue]
  exact hSees

/- A name that can be read can be assigned. -/
theorem leadsTo_assign
    {name : Token}
    (hKnown : name.lexeme ∈ known)
    (value : Value) :
    LeadsTo (Sees known) (Sees known) MissesNoName
      (assign name value) := by
  intro scopes hSees
  have hSome := hSees name.lexeme hKnown
  rw [← Scopes.isSome_assign? scopes name.lexeme value,
    Option.isSome_iff_exists] at hSome
  rcases hSome with ⟨assigned, hAssigned⟩
  simp only [assign, Scopes.assign, hAssigned]
  exact hSees.assign? hAssigned

end Evaluation

namespace Expr

/- An expression finds its names, if they are known. -/
theorem leadsTo_eval
    {e : Expr}
    (hNames : ∀ name ∈ e.names, name ∈ known) :
    LeadsTo (Sees known) (Sees known) MissesNoName
      e.eval := by
  induction e with
  | literal value =>
      exact LeadsTo.pure value
  | group inner ih =>
      exact ih hNames
  | unary operator operand ih =>
      apply (ih hNames).bind
      intro value
      apply LeadsTo.ofExcept
      intro error hError
      exact
        (Operation.isOfOperation_of_unary hError).missesNoName
  | binary left operator right leftIH rightIH =>
      rw [names, List.forall_mem_append] at hNames
      apply (leftIH hNames.1).bind
      intro leftValue
      apply (rightIH hNames.2).bind
      intro rightValue
      apply LeadsTo.ofExcept
      intro error hError
      exact
        (Operation.isOfOperation_of_binary hError).missesNoName
  | logical left operator right leftIH rightIH =>
      rw [names, List.forall_mem_append] at hNames
      apply (leftIH hNames.1).bind
      intro leftValue
      have hDecides :
          LeadsTo (Sees known) (Sees known) MissesNoName
            (ofExcept (Operation.decides operator leftValue) :
              Evaluation Bool) := by
        apply LeadsTo.ofExcept
        intro error hError
        exact
          (Operation.isOfOperation_of_decides
            hError).missesNoName
      apply hDecides.bind
      intro decided
      split
      · exact LeadsTo.pure leftValue
      · exact rightIH hNames.2
  | var name =>
      exact Evaluation.leadsTo_read (hNames _ (by simp [names]))
  | assign name value ih =>
      rw [names, List.forall_mem_cons] at hNames
      apply (ih hNames.2).bind
      intro newValue
      apply (Evaluation.leadsTo_assign hNames.1 newValue).bind
      intro _
      exact LeadsTo.pure newValue

end Expr

end OcScript

------------------------------------------------------------
-- Executions Find Their Names
------------------------------------------------------------

namespace OcScript

open RuntimeError (MissesNoName)
open Scopes (SameNames)

variable {W : Type}

namespace Machine

/- All of these names are in sight of the machine. -/
def Sees
    (known : Set String)
    (machine : Machine W) :
    Prop :=
  machine.scopes.Sees known

end Machine

namespace Execution

/-
  Where the names of `known` are in sight, the execution
  misses no name, and those of `later` are in sight at its
  end.
-/
def Finds
    {α : Type}
    (known later : Set String)
    (x : Execution W α) :
    Prop :=
  LeadsTo (Machine.Sees known) (Machine.Sees later)
    (Stop.IsIn MissesNoName) x

variable {known later : Set String}

theorem finds_evaluate
    {e : Expr}
    (hNames : ∀ name ∈ e.names, name ∈ known) :
    Finds known known (evaluate e : Execution W Value) := by
  intro machine hSees
  have hEval := Expr.leadsTo_eval hNames _ hSees
  unfold evaluate
  cases hResult : e.eval machine.scopes with
  | ok value scopes =>
      rw [hResult] at hEval
      exact hEval
  | error error scopes =>
      rw [hResult] at hEval
      exact hEval

/- A writer that fails is not about a name. -/
theorem finds_useSink
    (blamed : Token)
    (action : EStateM SinkError W Unit) :
    Finds known known (useSink blamed action) := by
  intro machine hSees
  unfold useSink
  cases action machine.sink with
  | ok _ sink =>
      exact hSees
  | error error sink =>
      intro hCause
      cases hCause

theorem finds_declare
    (name : Token)
    (value : Value) :
    Finds known (known ∪ {name.lexeme})
      (declare name value : Execution W Unit) := by
  intro machine hSees
  exact Scopes.Sees.declare hSees name.lexeme value

/-
  A scope of its own takes away nothing but its own frame,
  so the same names are in sight after it as before.
-/
theorem Finds.inNewScope
    {action : Execution W Unit}
    (hAction : Finds known later action)
    (hOuter : Keeps OuterNamesStay action) :
    Finds known known (inNewScope action) := by
  intro machine hSees
  have hInner :=
    hAction { machine with scopes := machine.scopes.enter }
      (Scopes.Sees.enter hSees)
  have hStay :=
    hOuter { machine with scopes := machine.scopes.enter }
  unfold Execution.inNewScope
  unfold stateAfter at hStay
  cases hResult :
      action
        { machine with scopes := machine.scopes.enter } with
  | ok _ after =>
      rw [hResult] at hStay
      exact Scopes.Sees.of_sameNames hSees hStay
  | error stop after =>
      rw [hResult] at hInner
      exact hInner

/- No turn of a loop takes a name out of sight. -/
theorem Finds.repeatWhile
    {condition : Execution W Bool}
    {body : Execution W Unit}
    (hCondition : Finds known known condition)
    (hBody : Finds known known body)
    (allowance : Nat) :
    Finds known known
      (repeatWhile allowance condition body) := by
  induction allowance with
  | zero =>
      intro machine _
      exact trivial
  | succ allowance ih =>
      apply hCondition.bind
      intro again
      cases again with
      | false =>
          exact LeadsTo.pure ()
      | true =>
          apply hBody.bind
          intro _
          exact ih

/- Fewer names than are in sight may be asked for. -/
theorem Finds.forget
    {α : Type}
    {x : Execution W α}
    {new : Set String}
    (hFinds : Finds known (known ∪ new) x) :
    Finds known known x := by
  apply hFinds.mono
  intro machine hSees
  exact Scopes.Sees.mono hSees Set.subset_union_left

end Execution

namespace Stmt

open Execution

variable {known : Set String}

/- After no declaration, the same names are in sight. -/
theorem finds_of_not_declaration
    {s : Stmt}
    (hStatement : s.isDeclaration = false)
    {x : Execution W Unit}
    (hFinds : Finds known known x) :
    Finds known (known ∪ declaredNames [s]) x := by
  rw [declaredNames_of_not_declaration hStatement,
    Set.union_empty]
  exact hFinds

variable [Writer W]

/-
  Statements find their names, and what they declare, they
  leave in sight, if each of their members does.
-/
theorem finds_execAll_of_forall
    {allowance : Nat}
    {body : List Stmt}
    (hMembers :
      ∀ s ∈ body, ∀ known : Set String,
        s.Scoped known →
        Finds known (known ∪ declaredNames [s])
          (s.exec allowance : Execution W Unit))
    (hScoped : ScopedAll known body) :
    Finds known (known ∪ declaredNames body)
      (execAll allowance body : Execution W Unit) := by
  induction body generalizing known with
  | nil =>
      rw [declaredNames_nil, Set.union_empty]
      exact LeadsTo.pure ()
  | cons s rest ih =>
      rw [List.forall_mem_cons] at hMembers
      rw [scopedAll_cons_iff] at hScoped
      rw [declaredNames_cons, ← Set.union_assoc]
      apply (hMembers.1 known hScoped.1).bind
      intro _
      exact ih hMembers.2 hScoped.2

/-
  A scoped statement misses no name, and what it declares is
  in sight after it.
-/
theorem finds_exec
    (allowance : Nat)
    {s : Stmt}
    (hScoped : s.Scoped known) :
    Finds known (known ∪ declaredNames [s])
      (s.exec allowance : Execution W Unit) := by
  induction s generalizing known with
  | declare name initial =>
      rw [declaredNames_declare]
      cases initial with
      | none =>
          exact finds_declare name .null
      | some initial =>
          rw [scoped_declare_iff] at hScoped
          apply (finds_evaluate (hScoped initial rfl)).bind
          intro value
          exact finds_declare name value
  | expression value =>
      apply finds_of_not_declaration rfl
      rw [scoped_expression_iff] at hScoped
      apply (finds_evaluate hScoped).bind
      intro _
      exact LeadsTo.pure ()
  | print keyword value =>
      apply finds_of_not_declaration rfl
      rw [scoped_print_iff] at hScoped
      apply (finds_evaluate hScoped).bind
      intro printed
      exact finds_useSink keyword _
  | block body ih =>
      apply finds_of_not_declaration rfl
      rw [scoped_block_iff] at hScoped
      have hBody :=
        finds_execAll_of_forall
          (fun s hMem _ => ih s hMem) hScoped
      apply hBody.inNewScope
      exact kept_outerNames.execAll allowance body
  | ifThen condition thenBranch ih =>
      apply finds_of_not_declaration rfl
      rw [scoped_ifThen_iff] at hScoped
      apply (finds_evaluate hScoped.1).bind
      intro value
      split
      · exact (ih hScoped.2).forget
      · exact LeadsTo.pure ()
  | ifElse condition thenBranch elseBranch thenIH elseIH =>
      apply finds_of_not_declaration rfl
      rw [scoped_ifElse_iff] at hScoped
      apply (finds_evaluate hScoped.1).bind
      intro value
      split
      · exact (thenIH hScoped.2.1).forget
      · exact (elseIH hScoped.2.2).forget
  | whileDo condition body ih =>
      apply finds_of_not_declaration rfl
      rw [scoped_whileDo_iff] at hScoped
      have hCondition :
          Finds known known
            (evaluate condition : Execution W Value) :=
        finds_evaluate hScoped.1
      exact
        Finds.repeatWhile (hCondition.map Value.truthy)
          (ih hScoped.2).forget allowance
  | skipped =>
      apply finds_of_not_declaration rfl
      exact LeadsTo.pure ()

/- So do statements in order. -/
theorem finds_execAll
    (allowance : Nat)
    {body : List Stmt}
    (hScoped : ScopedAll known body) :
    Finds known (known ∪ declaredNames body)
      (execAll allowance body : Execution W Unit) :=
  finds_execAll_of_forall
    (fun _ _ _ => finds_exec allowance) hScoped

end Stmt

end OcScript

------------------------------------------------------------
-- Lexically Scoped Programs
------------------------------------------------------------

namespace OcScript

namespace Run

/-
  A lexically scoped program never misses a name.  If every
  name it uses is bound globally or declared in front of the
  place where it is used, then no run of it fails for a name
  that was not found, whatever it prints to and however
  often its loops turn.  If an error reads as if it did,
  then the writer that it came from says so.
-/
theorem scoped_program_misses_no_name
    {W : Type}
    [Writer W]
    (program : Program)
    (globals : Frame)
    (hScoped :
      ∀ earlier name,
        Stmt.UsesAll program earlier name →
        name ∈ globals ∨
          name ∈ Stmt.declaredNames earlier)
    (allowance : Nat)
    (sink : W) :
    ∀ error,
      (ofProgram allowance program
        ⟨[globals], sink⟩).outcome = .failed error →
      error.cause ≠ .undefinedVariable ∧
        ∀ name,
          error.message =
            "Undefined variable '" ++ name ++ "'." →
          ∃ sinkError,
            error.cause = .sink sinkError ∧
              Writer.Says W sinkError := by
  intro error hFailed
  let known : Set String := {name | name ∈ globals}
  have hSees : Machine.Sees known ⟨[globals], sink⟩ := by
    intro name (hBound : name ∈ globals)
    rw [Std.ExtTreeMap.mem_iff_isSome_getElem?,
      Option.isSome_iff_exists] at hBound
    rcases hBound with ⟨value, hValue⟩
    rw [Scopes.get?, hValue]
    rfl
  have hRun :
      Execution.Finds known
        (known ∪ Stmt.declaredNames program)
        (Execution.run allowance program :
          Execution W Unit) := by
    apply (Stmt.finds_execAll allowance hScoped).bind
    intro _
    exact
      Execution.finds_useSink (Token.atEnd 0) Writer.flush
  rcases run_eq_error_of_failed hFailed with ⟨after, hError⟩
  have hFound := hRun _ hSees
  rw [hError] at hFound
  refine ⟨hFound, ?_⟩
  intro name hMessage
  rcases
      (isSaid_of_failed hFailed).undefinedVariable_or_said
        hMessage with
    ⟨hCause, -⟩ | hSays
  · exact absurd hCause hFound
  · exact hSays

/-
  In each turn of the loop, `b` is declared anew, and so is
  `a` in a block, where `b` is another name for it; `g` is
  global.  The second turn fails, for the value of `a`.
-/
def shadowingLoop : Program :=
  let a : Token := ⟨.identifier, "a", 1⟩
  let b : Token := ⟨.identifier, "b", 2⟩
  let g : Token := ⟨.identifier, "g", 3⟩
  let plus : Token := ⟨.symbol .plus, "+", 4⟩
  [.declare a (some (.var g)),
    .whileDo (.var a)
      (.block
        [.declare b (some (.binary (.var a) plus (.var g))),
          .block
            [.declare a (some (.var b)),
              .expression (.assign b (.var a))],
          .expression
            (.assign a (.literal (.bool true)))])]

theorem scoped_program_misses_no_name_shadowingLoop :
    let globals := (∅ : Frame).insert "g" (.str "x")
    let run :=
      ofProgram 2 shadowingLoop
        ⟨[globals], Sink.unbounded⟩
    let error : RuntimeError :=
      ⟨⟨.symbol .plus, "+", 4⟩, .operandsNotAddable⟩
    (∀ earlier name,
        Stmt.UsesAll shadowingLoop earlier name →
        name ∈ globals ∨
          name ∈ Stmt.declaredNames earlier) ∧
      run.outcome = .failed error ∧
      ∀ name,
        error.message ≠
          "Undefined variable '" ++ name ++ "'." := by
  intro globals run error
  have hScoped :
      Stmt.ScopedAll {name | name ∈ globals}
        shadowingLoop := by
    simp [shadowingLoop, globals, Expr.names,
      Stmt.declaredNames_declare]
  have hFailed : run.outcome = .failed error := by
    decide +kernel
  have hNames :=
    scoped_program_misses_no_name shadowingLoop globals
      hScoped 2 Sink.unbounded error hFailed
  refine ⟨hScoped, hFailed, ?_⟩
  intro name hMessage
  rcases hNames.2 name hMessage with ⟨_, hCause, -⟩
  cases hCause

end Run

end OcScript
