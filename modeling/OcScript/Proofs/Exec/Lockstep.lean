import OcScript.Exec
import OcScript.Proofs.Trees

/-
  This file runs two computations side by side.

  Computations run in lockstep if, from related states, they
  give the same value or the same error and leave related
  states again.  Computations that are put together alike
  from parts in lockstep are in lockstep.  An evaluation
  needs no more of two machines than related scopes, and
  writing needs no more than related writers.

  Key definitions include:
    * `OcScript.SameResult`
    * `OcScript.Lockstep`
    * `OcScript.Evaluation.NamesAlike`
    * `OcScript.Machine.Alike`

  Key theorems include:
    * `OcScript.Lockstep.bind`
    * `OcScript.Evaluation.namesAlike_of_scopes`
    * `OcScript.Expr.lockstep_mapNames`
    * `OcScript.Expr.lockstep_self`
    * `OcScript.Execution.lockstep_evaluate`
    * `OcScript.Execution.lockstep_useSink`
    * `OcScript.Execution.lockstep_inNewScope`
    * `OcScript.Execution.lockstep_repeatWhile`
    * `OcScript.Stmt.lockstep_execAll_of_forall`
-/

------------------------------------------------------------
-- Lockstep
------------------------------------------------------------

namespace OcScript

/- The results are the same, but for the states left. -/
inductive SameResult
    {ε σ α : Type}
    (R : σ → σ → Prop) :
    EStateM.Result ε σ α → EStateM.Result ε σ α → Prop where
| ok
    {a : α}
    {s t : σ}
    (hStates : R s t) :
    SameResult R (.ok a s) (.ok a t)
| error
    {e : ε}
    {s t : σ}
    (hStates : R s t) :
    SameResult R (.error e s) (.error e t)

/- Related states lead to the same result. -/
def Lockstep
    {ε σ α : Type}
    (R : σ → σ → Prop)
    (x y : EStateM ε σ α) :
    Prop :=
  ∀ s t, R s t → SameResult R (x s) (y t)

section Lockstep

variable {ε σ α β : Type}
variable {R Q : σ → σ → Prop}

theorem SameResult.mono
    {first second : EStateM.Result ε σ α}
    (hSame : SameResult R first second)
    (hWeaker : ∀ s t, R s t → Q s t) :
    SameResult Q first second := by
  cases hSame with
  | ok hStates =>
      exact .ok (hWeaker _ _ hStates)
  | error hStates =>
      exact .error (hWeaker _ _ hStates)

/- Results that leave the same states are the same. -/
theorem SameResult.eq
    {first second : EStateM.Result ε σ α}
    (hSame : SameResult Eq first second) :
    first = second := by
  cases hSame with
  | ok hStates =>
      rw [hStates]
  | error hStates =>
      rw [hStates]

namespace Lockstep

theorem pure
    (a : α) :
    Lockstep R (pure a : EStateM ε σ α) (pure a) := by
  intro s t hStates
  exact .ok hStates

theorem throw
    (e : ε) :
    Lockstep R (throw e : EStateM ε σ α) (throw e) := by
  intro s t hStates
  exact .error hStates

theorem ofExcept
    (x : Except ε α) :
    Lockstep R (ofExcept x : EStateM ε σ α)
      (ofExcept x) := by
  cases x with
  | ok a =>
      exact pure a
  | error e =>
      exact throw e

/- The same computation from the same state. -/
theorem refl
    (x : EStateM ε σ α) :
    Lockstep Eq x x := by
  rintro s _ rfl
  cases x s with
  | ok a after =>
      exact .ok rfl
  | error e after =>
      exact .error rfl

theorem bind
    {x y : EStateM ε σ α}
    {k l : α → EStateM ε σ β}
    (hFirst : Lockstep R x y)
    (hRest : ∀ a, Lockstep R (k a) (l a)) :
    Lockstep R (x >>= k) (y >>= l) := by
  intro s t hStates
  have hSame := hFirst s t hStates
  simp only [Bind.bind, EStateM.bind]
  generalize x s = first, y t = second at hSame ⊢
  cases hSame with
  | ok hBetween =>
      exact hRest _ _ _ hBetween
  | error hBetween =>
      exact .error hBetween

theorem map
    {x y : EStateM ε σ α}
    (hFirst : Lockstep R x y)
    (g : α → β) :
    Lockstep R (g <$> x) (g <$> y) := by
  rw [map_eq_pure_bind, map_eq_pure_bind]
  apply hFirst.bind
  intro a
  exact pure (g a)

end Lockstep

end Lockstep

end OcScript

------------------------------------------------------------
-- Expressions in Lockstep
------------------------------------------------------------

namespace OcScript

/- The two names are read and assigned in lockstep. -/
structure Evaluation.NamesAlike
    (R : Scopes → Scopes → Prop)
    (name other : Token) :
    Prop where
  read : Lockstep R (read name) (read other)
  assign :
    ∀ value,
      Lockstep R (assign name value) (assign other value)

open Evaluation (NamesAlike)

/- A name has the same value, and is assigned alike. -/
theorem Evaluation.namesAlike_of_scopes
    {R : Scopes → Scopes → Prop}
    {name : Token}
    (hGet :
      ∀ scopes others,
        R scopes others →
        others.get? name.lexeme = scopes.get? name.lexeme)
    (hAssign :
      ∀ value scopes others,
        R scopes others →
        Option.Rel R
          (scopes.assign? name.lexeme value)
          (others.assign? name.lexeme value)) :
    NamesAlike R name name := by
  refine ⟨?_, ?_⟩
  · intro scopes others hScopes
    unfold read Scopes.read
    rw [hGet scopes others hScopes]
    cases scopes.get? name.lexeme with
    | some value =>
        exact .ok hScopes
    | none =>
        exact .error hScopes
  · intro value scopes others hScopes
    have hRel := hAssign value scopes others hScopes
    unfold assign Scopes.assign
    generalize scopes.assign? name.lexeme value = first,
      others.assign? name.lexeme value = second at hRel ⊢
    cases hRel with
    | some hAssigned =>
        exact .ok hAssigned
    | none =>
        exact .error hScopes

/- Only the names of an expression depend on the scopes. -/
theorem Expr.lockstep_mapNames
    {R : Scopes → Scopes → Prop}
    {f : Token → Token}
    {e : Expr}
    (hNames :
      ∀ name,
        name.lexeme ∈ e.names → NamesAlike R name (f name)) :
    Lockstep R e.eval (e.mapNames f).eval := by
  induction e with
  | literal value =>
      exact Lockstep.pure value
  | group inner ih =>
      exact ih hNames
  | unary operator operand ih =>
      apply (ih hNames).bind
      intro value
      exact Lockstep.ofExcept _
  | binary left operator right leftIH rightIH =>
      simp only [names, List.mem_append] at hNames
      apply (leftIH fun name h => hNames name (.inl h)).bind
      intro leftValue
      apply (rightIH fun name h => hNames name (.inr h)).bind
      intro rightValue
      exact Lockstep.ofExcept _
  | logical left operator right leftIH rightIH =>
      simp only [names, List.mem_append] at hNames
      apply (leftIH fun name h => hNames name (.inl h)).bind
      intro leftValue
      apply (Lockstep.ofExcept _).bind
      intro decided
      split
      · exact Lockstep.pure leftValue
      · exact rightIH fun name h => hNames name (.inr h)
  | var name =>
      exact (hNames name (List.mem_singleton_self _)).read
  | assign name value ih =>
      simp only [names, List.mem_cons] at hNames
      apply (ih fun name h => hNames name (.inr h)).bind
      intro newValue
      apply ((hNames name (.inl rfl)).assign newValue).bind
      intro _
      exact Lockstep.pure newValue

/- An expression is in lockstep with itself. -/
theorem Expr.lockstep_self
    {R : Scopes → Scopes → Prop}
    {e : Expr}
    (hNames :
      ∀ name,
        name.lexeme ∈ e.names → NamesAlike R name name) :
    Lockstep R e.eval e.eval := by
  have hAlike : Lockstep R e.eval (e.mapNames id).eval :=
    lockstep_mapNames hNames
  rwa [mapNames_id] at hAlike

end OcScript

------------------------------------------------------------
-- Related Machines
------------------------------------------------------------

namespace OcScript

/- The writers are related, and so are the scopes. -/
structure Machine.Alike
    {W : Type}
    (Q : W → W → Prop)
    (R : Scopes → Scopes → Prop)
    (m n : Machine W) :
    Prop where
  sink : Q m.sink n.sink
  scopes : R m.scopes n.scopes

namespace Execution

open Machine (Alike)

variable {W : Type}
variable {Q : W → W → Prop}
variable {R : Scopes → Scopes → Prop}

theorem lockstep_evaluate
    {e f : Expr}
    (hEval : Lockstep R e.eval f.eval) :
    Lockstep (Alike Q R) (evaluate e) (evaluate f) := by
  intro m n hAlike
  have hSame := hEval _ _ hAlike.scopes
  unfold evaluate
  generalize e.eval m.scopes = first,
    f.eval n.scopes = second at hSame ⊢
  cases hSame with
  | ok hScopes =>
      exact .ok ⟨hAlike.sink, hScopes⟩
  | error hScopes =>
      exact .error ⟨hAlike.sink, hScopes⟩

/- The scopes have no part in what a writer does. -/
theorem sameResult_useSink
    (blamed : Token)
    {action other : EStateM SinkError W Unit}
    {m n : Machine W}
    (hScopes : R m.scopes n.scopes)
    (hSame : SameResult Q (action m.sink) (other n.sink)) :
    SameResult (Alike Q R) (useSink blamed action m)
      (useSink blamed other n) := by
  unfold useSink
  generalize action m.sink = first,
    other n.sink = second at hSame ⊢
  cases hSame with
  | ok hSinks =>
      exact .ok ⟨hSinks, hScopes⟩
  | error hSinks =>
      exact .error ⟨hSinks, hScopes⟩

theorem lockstep_useSink
    (blamed : Token)
    {action other : EStateM SinkError W Unit}
    (hAction : Lockstep Q action other) :
    Lockstep (Alike Q R) (useSink blamed action)
      (useSink blamed other) := by
  intro m n hAlike
  apply sameResult_useSink blamed hAlike.scopes
  exact hAction _ _ hAlike.sink

theorem lockstep_declare
    {name other : Token}
    {value : Value}
    (hDeclare :
      ∀ scopes others,
        R scopes others →
        R (scopes.declare name.lexeme value)
          (others.declare other.lexeme value)) :
    Lockstep (Alike Q R) (declare name value)
      (declare other value) := by
  intro m n hAlike
  exact .ok ⟨hAlike.sink, hDeclare _ _ hAlike.scopes⟩

/- Both leave the scopes that they were executed in. -/
theorem sameResult_inNewScope
    {Inner : Scopes → Scopes → Prop}
    (hLeave :
      ∀ scopes others,
        Inner scopes others →
        R scopes.leave others.leave)
    {x y : Execution W Unit}
    {m n : Machine W}
    (hSame :
      SameResult (Alike Q Inner)
        (x { m with scopes := m.scopes.enter })
        (y { n with scopes := n.scopes.enter })) :
    SameResult (Alike Q R) (inNewScope x m)
      (inNewScope y n) := by
  unfold inNewScope
  generalize
    x { m with scopes := m.scopes.enter } = first,
    y { n with scopes := n.scopes.enter } = second
    at hSame ⊢
  cases hSame with
  | ok hInner =>
      exact .ok ⟨hInner.sink, hLeave _ _ hInner.scopes⟩
  | error hInner =>
      exact .error ⟨hInner.sink, hLeave _ _ hInner.scopes⟩

/- In scopes of their own, other scopes may be related. -/
theorem lockstep_inNewScope
    {Inner : Scopes → Scopes → Prop}
    (hEnter :
      ∀ scopes others,
        R scopes others →
        Inner scopes.enter others.enter)
    (hLeave :
      ∀ scopes others,
        Inner scopes others →
        R scopes.leave others.leave)
    {x y : Execution W Unit}
    (hAction : Lockstep (Alike Q Inner) x y) :
    Lockstep (Alike Q R) (inNewScope x) (inNewScope y) := by
  intro m n hAlike
  apply sameResult_inNewScope hLeave
  apply hAction
  exact ⟨hAlike.sink, hEnter _ _ hAlike.scopes⟩

theorem lockstep_repeatWhile
    {S : Machine W → Machine W → Prop}
    {condition test : Execution W Bool}
    {x y : Execution W Unit}
    (hCondition : Lockstep S condition test)
    (hBody : Lockstep S x y)
    (allowance : Nat) :
    Lockstep S (repeatWhile allowance condition x)
      (repeatWhile allowance test y) := by
  induction allowance with
  | zero =>
      exact Lockstep.throw _
  | succ allowance ih =>
      apply hCondition.bind
      intro again
      cases again with
      | false =>
          exact Lockstep.pure ()
      | true =>
          apply hBody.bind
          intro _
          exact ih

end Execution

namespace Stmt

/- If the members are in lockstep, so is their list. -/
theorem lockstep_execAll_of_forall
    {W : Type}
    [Writer W]
    {S : Machine W → Machine W → Prop}
    {allowance : Nat}
    {body : List Stmt}
    (hMembers :
      ∀ s ∈ body,
        Lockstep S (s.exec allowance) (s.exec allowance)) :
    Lockstep S (execAll allowance body)
      (execAll allowance body) := by
  induction body with
  | nil =>
      exact Lockstep.pure ()
  | cons s rest ih =>
      rw [List.forall_mem_cons] at hMembers
      apply hMembers.1.bind
      intro _
      exact ih hMembers.2

end Stmt

end OcScript
