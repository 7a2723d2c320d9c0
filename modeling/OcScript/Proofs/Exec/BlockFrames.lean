import OcScript.Proofs.Exec.ScopeNames

/-
  This file says what a block leaves of the scopes around it
  when it ends, with or without a failure.

  What a block declares is in its own frame, which is gone
  when the block is left.  A value in the frames around it
  is only ever changed by an assignment, so by one that
  stands somewhere in the block.

  Key definitions include:
    * `OcScript.Scopes.AlterOnly`

  Key theorems include:
    * `OcScript.Scopes.keptBy_alterOnly`
    * `OcScript.Stmt.block_restores_scopes`
-/

------------------------------------------------------------
-- Scopes With Few New Values
------------------------------------------------------------

namespace OcScript

namespace Frame

/- No other names than these have other values. -/
def AltersOnly
    (names : List String)
    (before after : Frame) :
    Prop :=
  ∀ name, after[name]? ≠ before[name]? → name ∈ names

/- A new value for one of the names is one of theirs. -/
theorem keptBy_altersOnly
    (names : List String) :
    KeptBy names (AltersOnly names) where
  refl _ _ hChanged := absurd rfl hChanged
  trans := by
    intro before middle after hFirst hLast name hChanged
    by_cases hLater : after[name]? = middle[name]?
    · rw [hLater] at hChanged
      exact hFirst name hChanged
    · exact hLast name hLater
  insert := by
    intro name frame hName _ value other hChanged
    by_cases hSame : name = other
    · subst hSame
      exact hName
    · simp [Std.ExtTreeMap.getElem?_insert, hSame]
        at hChanged

end Frame

namespace Scopes

/- No other names have other values, frame by frame. -/
abbrev AlterOnly
    (names : List String)
    (before after : Scopes) :
    Prop :=
  List.Forall₂ (Frame.AltersOnly names) before after

theorem keptBy_alterOnly
    (names : List String) :
    KeptBy names (AlterOnly names) :=
  keptBy_of_frames (Frame.keptBy_altersOnly names)

end Scopes

end OcScript

------------------------------------------------------------
-- Blocks
------------------------------------------------------------

namespace OcScript

namespace Stmt

open Execution (Ends Ending keeps_block)
open Scopes (SameNames)

/-
  A block that ends, with or without a failure, leaves the
  scopes around it as they were, frame by frame: they bind
  the names that they did, and a name has another value in
  a frame only if it is assigned somewhere in the block.
-/
theorem block_restores_scopes
    {W : Type}
    [Writer W]
    (body : List Stmt)
    (machine : Machine W)
    (ending : Ending W)
    (hEnds :
      Ends ((Stmt.block body).exec ·) machine ending) :
    List.Forall₂
        (fun before after : Frame =>
          ∀ name, name ∈ after ↔ name ∈ before)
        machine.scopes ending.machine.scopes ∧
      List.Forall₂
        (fun before after : Frame =>
          ∀ name,
            after[name]? ≠ before[name]? →
            name ∈ assignedNames body)
        machine.scopes ending.machine.scopes := by
  have hNames :
      Execution.OnScopes SameNames
        machine ending.machine :=
    hEnds.kept fun allowance =>
      keeps_block allowance (SameNames.keptBy _)
  have hValues :
      Execution.OnScopes
        (Scopes.AlterOnly (assignedNames body))
        machine ending.machine :=
    hEnds.kept fun allowance =>
      keeps_block allowance (Scopes.keptBy_alterOnly _)
  exact ⟨hNames, hValues⟩

/-
  Statements that assign `b` in a loop, and then declare `a`
  anew, so that the next assignment fails.
-/
def shadowing : List Stmt :=
  let a : Token := ⟨.identifier, "a", 1⟩
  let b : Token := ⟨.identifier, "b", 2⟩
  let plus : Token := ⟨.symbol .plus, "+", 3⟩
  let exclaimed :=
    Expr.binary (.var a) plus (.literal (.str "!"))
  [.whileDo (.literal (.bool true))
    (.block
      [.expression (.assign b exclaimed), .declare a none,
        .expression (.assign a exclaimed)])]

/- The block fails, and only the value of `b` is another. -/
theorem block_restores_scopes_shadowing :
    let before :=
      ((∅ : Frame).insert "a" (.str "x")).insert "b" .null
    let after := before.insert "b" (.str "x!")
    let error : RuntimeError :=
      ⟨⟨.symbol .plus, "+", 3⟩, .operandsNotAddable⟩
    let machine : Machine Sink := ⟨[before], .unbounded⟩
    let ending : Ending Sink :=
      ⟨some error, ⟨[after], .unbounded⟩⟩
    Ends ((Stmt.block shadowing).exec ·) machine ending ∧
      (∀ name, name ∈ after ↔ name ∈ before) ∧
      ∀ name,
        after[name]? ≠ before[name]? →
        name ∈ assignedNames shadowing := by
  intro before after error machine ending
  have hResult :
      (Stmt.block shadowing).exec 1 machine =
        ending.result :=
    rfl
  have hEnds :
      Ends ((Stmt.block shadowing).exec ·) machine ending :=
    (steady_exec _).ends_of_eq hResult
  rcases
      block_restores_scopes shadowing machine ending hEnds with
    ⟨hNames, hValues⟩
  rw [List.forall₂_cons] at hNames hValues
  exact ⟨hEnds, hNames.1, hValues.1⟩

end Stmt

end OcScript
