import OcScript.Exec
import OcScript.Proofs.Trees

/-
  This file frees what is said about executions from their
  allowances.

  The allowance only bounds an execution: once it is enough
  for the end to be reached, a larger one changes nothing.
  So an execution that is given larger and larger allowances
  either ends in one way or diverges.

  Key definitions include:
    * `OcScript.Execution.Approximates`
    * `OcScript.Execution.Ending`
    * `OcScript.Execution.Ends`
    * `OcScript.Execution.Diverges`
    * `OcScript.Execution.EndAlike`
    * `OcScript.Execution.Steady`

  Key theorems include:
    * `OcScript.Stmt.approximates_exec`
    * `OcScript.Execution.Steady.ends_of_eq`
    * `OcScript.Execution.Steady.diverges_or_ends`
    * `OcScript.Execution.Steady.endAlike_of_eq`
    * `OcScript.Execution.Ends.unique`
-/

------------------------------------------------------------
-- Approximations
------------------------------------------------------------

namespace OcScript

namespace Execution

variable {W : Type}

/- The execution was not cut short by its allowance. -/
def IsFinal
    {α : Type} :
    EStateM.Result Stop (Machine W) α → Prop
| .ok _ _ => True
| .error (.failure _) _ => True
| .error .outOfAllowance _ => False

instance decidableIsFinal
    {α : Type}
    (result : EStateM.Result Stop (Machine W) α) :
    Decidable (IsFinal result) :=
  match result with
  | .ok _ _ => .isTrue trivial
  | .error (.failure _) _ => .isTrue trivial
  | .error .outOfAllowance _ => .isFalse id

/- Where the first execution ends, the second ends alike. -/
def Approximates
    {α : Type}
    (x y : Execution W α) :
    Prop :=
  ∀ machine, IsFinal (x machine) → y machine = x machine

namespace Approximates

variable {α β : Type}

theorem refl
    (x : Execution W α) :
    Approximates x x := by
  intro machine _
  rfl

theorem bind
    {x y : Execution W α}
    {k l : α → Execution W β}
    (hFirst : Approximates x y)
    (hRest : ∀ a, Approximates (k a) (l a)) :
    Approximates (x >>= k) (y >>= l) := by
  intro machine hFinal
  have hSame := hFirst machine
  simp only [Bind.bind, EStateM.bind] at hFinal ⊢
  cases hResult : x machine with
  | ok a between =>
      rw [hResult] at hFinal hSame
      rw [hSame trivial]
      exact hRest a between hFinal
  | error stop between =>
      rw [hResult] at hFinal hSame
      cases stop with
      | failure error =>
          rw [hSame trivial]
      | outOfAllowance =>
          cases hFinal

theorem inNewScope
    {x y : Execution W Unit}
    (hAction : Approximates x y) :
    Approximates (inNewScope x) (inNewScope y) := by
  intro machine hFinal
  have hSame :=
    hAction { machine with scopes := machine.scopes.enter }
  unfold Execution.inNewScope at hFinal ⊢
  cases hResult :
      x { machine with scopes := machine.scopes.enter } with
  | ok _ after =>
      rw [hResult] at hSame
      rw [hSame trivial]
  | error stop after =>
      rw [hResult] at hFinal hSame
      cases stop with
      | failure error =>
          rw [hSame trivial]
      | outOfAllowance =>
          cases hFinal

/- More tests of a condition do not change what was found. -/
theorem repeatWhile
    {small large : Nat}
    (hLe : small ≤ large)
    (condition : Execution W Bool)
    {x y : Execution W Unit}
    (hBody : Approximates x y) :
    Approximates
      (repeatWhile small condition x)
      (repeatWhile large condition y) := by
  induction small generalizing large with
  | zero =>
      intro machine hFinal
      cases hFinal
  | succ small ih =>
      cases large with
      | zero =>
          cases hLe
      | succ large =>
          apply (refl condition).bind
          intro again
          cases again with
          | false =>
              exact refl _
          | true =>
              apply hBody.bind
              intro _
              exact ih (Nat.le_of_succ_le_succ hLe)

end Approximates

end Execution

namespace Stmt

open Execution (Approximates)

variable {W : Type}
variable [Writer W]

theorem approximates_execAll_of_forall
    {small large : Nat}
    {body : List Stmt}
    (hMembers :
      ∀ s ∈ body,
        Approximates (W := W) (s.exec small)
          (s.exec large)) :
    Approximates (W := W) (execAll small body)
      (execAll large body) := by
  induction body with
  | nil =>
      exact .refl _
  | cons s rest ih =>
      rw [List.forall_mem_cons] at hMembers
      apply hMembers.1.bind
      intro _
      exact ih hMembers.2

/- A larger allowance does not change how a statement ends. -/
theorem approximates_exec
    {small large : Nat}
    (hLe : small ≤ large)
    (s : Stmt) :
    Approximates (W := W) (s.exec small)
      (s.exec large) := by
  induction s with
  | expression value =>
      exact .refl _
  | print keyword value =>
      exact .refl _
  | declare name initial =>
      cases initial with
      | none =>
          exact .refl _
      | some initial =>
          exact .refl _
  | block body ih =>
      apply Approximates.inNewScope
      exact approximates_execAll_of_forall ih
  | ifThen condition thenBranch ih =>
      apply (Approximates.refl _).bind
      intro value
      split
      · exact ih
      · exact .refl _
  | ifElse condition thenBranch elseBranch thenIH elseIH =>
      apply (Approximates.refl _).bind
      intro value
      split
      · exact thenIH
      · exact elseIH
  | whileDo condition body ih =>
      exact Approximates.repeatWhile hLe _ ih
  | skipped =>
      exact .refl _

end Stmt

end OcScript

------------------------------------------------------------
-- Endings
------------------------------------------------------------

namespace OcScript

namespace Execution

/-
  How an execution ended: with or without a failure, and the
  machine it left.
-/
structure Ending (W : Type) where
  failure? : Option RuntimeError
  machine : Machine W

namespace Ending

variable {W : Type}

/- The result of an execution that ended so. -/
def result
    (ending : Ending W) :
    EStateM.Result Stop (Machine W) Unit :=
  match ending.failure? with
  | none => .ok () ending.machine
  | some error => .error (.failure error) ending.machine

theorem isFinal_result
    (ending : Ending W) :
    IsFinal ending.result := by
  rcases ending with ⟨_ | error, machine⟩
  · trivial
  · trivial

theorem result_injective
    {ending other : Ending W}
    (hResult : ending.result = other.result) :
    ending = other := by
  rcases ending with ⟨_ | error, machine⟩ <;>
    rcases other with ⟨_ | error, machine⟩ <;>
    cases hResult <;>
    rfl

/- A result that was not cut short is that of an ending. -/
theorem exists_of_isFinal
    {result : EStateM.Result Stop (Machine W) Unit}
    (hFinal : IsFinal result) :
    ∃ ending : Ending W, ending.result = result := by
  cases result with
  | ok _ machine =>
      exact ⟨⟨none, machine⟩, rfl⟩
  | error stop machine =>
      cases stop with
      | failure error =>
          exact ⟨⟨some error, machine⟩, rfl⟩
      | outOfAllowance =>
          cases hFinal

/- The ending of a result, unless it was cut short. -/
def ofResult? :
    EStateM.Result Stop (Machine W) Unit → Option (Ending W)
| .ok _ machine => some ⟨none, machine⟩
| .error (.failure error) machine => some ⟨some error, machine⟩
| .error .outOfAllowance _ => none

theorem result_of_ofResult?
    {result : EStateM.Result Stop (Machine W) Unit}
    {ending : Ending W}
    (hEnding : ofResult? result = some ending) :
    result = ending.result := by
  unfold ofResult? at hEnding
  split at hEnding <;> cases hEnding <;> rfl

end Ending

variable {W : Type}

/- With any allowance that is enough, it ends so. -/
def Ends
    (x : Nat → Execution W Unit)
    (machine : Machine W)
    (ending : Ending W) :
    Prop :=
  ∃ enough,
    ∀ allowance,
      enough ≤ allowance →
      x allowance machine = ending.result

/- No allowance is enough. -/
def Diverges
    (x : Nat → Execution W Unit)
    (machine : Machine W) :
    Prop :=
  ∀ allowance, ¬ IsFinal (x allowance machine)

/- Both diverge, or both end in the same way. -/
def EndAlike
    (x y : Nat → Execution W Unit)
    (machine : Machine W) :
    Prop :=
  (Diverges x machine ∧ Diverges y machine) ∨
    ∃ ending, Ends x machine ending ∧ Ends y machine ending

/- A larger allowance does not change how it ends. -/
def Steady
    (x : Nat → Execution W Unit) :
    Prop :=
  ∀ ⦃small large⦄,
    small ≤ large → Approximates (x small) (x large)

variable {x : Nat → Execution W Unit}
variable {machine : Machine W}

/- An execution ends in one way. -/
theorem Ends.unique
    {ending other : Ending W}
    (hEnds : Ends x machine ending)
    (hOther : Ends x machine other) :
    ending = other := by
  rcases hEnds with ⟨enough, hEnds⟩
  rcases hOther with ⟨enoughOther, hOther⟩
  apply Ending.result_injective
  rw [← hEnds _ (Nat.le_max_left enough enoughOther),
    ← hOther _ (Nat.le_max_right enough enoughOther)]

/- Where one of two ends, the other does so, too. -/
theorem EndAlike.of_ends
    {y : Nat → Execution W Unit}
    (hAlike : EndAlike x y machine)
    {ending : Ending W}
    (hEnds : Ends x machine ending) :
    Ends y machine ending := by
  rcases hAlike with ⟨hDiverges, -⟩ | ⟨other, hOther, hAlike⟩
  · rcases hEnds with ⟨enough, hEnds⟩
    have hResult := hEnds enough (Nat.le_refl enough)
    refine absurd ?_ (hDiverges enough)
    rw [hResult]
    exact ending.isFinal_result
  · rw [hEnds.unique hOther]
    exact hAlike

namespace Steady

/- An allowance that was enough once is enough. -/
theorem ends_of_eq
    (hSteady : Steady x)
    {allowance : Nat}
    {ending : Ending W}
    (hResult : x allowance machine = ending.result) :
    Ends x machine ending := by
  refine ⟨allowance, ?_⟩
  intro larger hLe
  have hSame := hSteady hLe machine
  rw [hResult] at hSame
  exact hSame ending.isFinal_result

/- An execution diverges or ends. -/
theorem diverges_or_ends
    (hSteady : Steady x)
    (machine : Machine W) :
    Diverges x machine ∨
      ∃ ending, Ends x machine ending := by
  by_cases hFinal : ∃ allowance, IsFinal (x allowance machine)
  · rcases hFinal with ⟨allowance, hFinal⟩
    rcases Ending.exists_of_isFinal hFinal with
      ⟨ending, hResult⟩
    exact .inr ⟨ending, hSteady.ends_of_eq hResult.symm⟩
  · exact .inl (not_exists.mp hFinal)

/- With the same results, executions end alike. -/
theorem endAlike_of_eq
    {y : Nat → Execution W Unit}
    (hSteady : Steady x)
    (hSame : ∀ allowance, y allowance = x allowance)
    (machine : Machine W) :
    EndAlike x y machine := by
  obtain rfl : y = x := funext hSame
  rcases hSteady.diverges_or_ends machine with
    hDiverges | ⟨ending, hEnds⟩
  · exact .inl ⟨hDiverges, hDiverges⟩
  · exact .inr ⟨ending, hEnds, hEnds⟩

end Steady

end Execution

namespace Stmt

open Execution (Steady)

variable {W : Type}
variable [Writer W]

theorem steady_exec
    (s : Stmt) :
    Steady (W := W) fun allowance => s.exec allowance := by
  intro small large hLe
  exact approximates_exec hLe s

theorem steady_execAll
    (body : List Stmt) :
    Steady (W := W) fun allowance =>
      execAll allowance body := by
  intro small large hLe
  apply approximates_execAll_of_forall
  intro s _
  exact approximates_exec hLe s

end Stmt

namespace Execution

theorem steady_run
    {W : Type}
    [Writer W]
    (program : Program) :
    Steady (W := W) fun allowance =>
      run allowance program := by
  intro small large hLe
  apply (Stmt.steady_execAll program hLe).bind
  intro _
  exact .refl _

end Execution

end OcScript
