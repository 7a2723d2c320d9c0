import OcScript.Proofs.Exec.Allowance
import OcScript.Proofs.Exec.Lockstep

/-
  This file proves that a block that declares nothing does
  what its statements do without it.

  The block runs with an empty frame more.  A name is never
  found in that frame and so is never assigned there, and
  what is declared goes into the scopes of the blocks within.
  The frame is still empty when the block is left.

  Key definitions include:
    * `OcScript.Stmt.declaresHere`
    * `OcScript.Stmt.Embraced`
    * `OcScript.Scopes.Padded`

  Key theorems include:
    * `OcScript.Scopes.Padded.assign?_rel`
    * `OcScript.Stmt.lockstep_padded`
    * `OcScript.Stmt.exec_block_plain`
    * `OcScript.Stmt.Embraced.exec_eq`
    * `OcScript.Stmt.plain_block_is_transparent`
-/

------------------------------------------------------------
-- Statements That Declare Nothing
------------------------------------------------------------

namespace OcScript

namespace Stmt

/-
  The statement has a declaration that is in no block of its
  own: it is one, or it has one in a branch or as the body
  of a loop.
-/
def declaresHere : Stmt → Bool
| .declare _ _ => true
| .ifThen _ thenBranch => thenBranch.declaresHere
| .ifElse _ thenBranch elseBranch =>
    thenBranch.declaresHere || elseBranch.declaresHere
| .whileDo _ body => body.declaresHere
| _ => false

/-
  The second statement is the first one with more braces:
  any number of statements in it that declare nothing have
  been made blocks of their own.
-/
inductive Embraced : Stmt → Stmt → Prop where
| refl (s : Stmt) : Embraced s s
| trans
    {s t u : Stmt}
    (hFirst : Embraced s t)
    (hLast : Embraced t u) :
    Embraced s u
| braces
    {s : Stmt}
    (hPlain : s.declaresHere = false) :
    Embraced s (.block [s])
| block
    {s t : Stmt}
    (front back : List Stmt)
    (hMember : Embraced s t) :
    Embraced (.block (front ++ s :: back))
      (.block (front ++ t :: back))
| ifThen
    {s t : Stmt}
    (condition : Expr)
    (hBranch : Embraced s t) :
    Embraced (.ifThen condition s) (.ifThen condition t)
| ifElse
    {s t thenBranch other : Stmt}
    (condition : Expr)
    (hThen : Embraced thenBranch other)
    (hElse : Embraced s t) :
    Embraced (.ifElse condition thenBranch s)
      (.ifElse condition other t)
| whileDo
    {s t : Stmt}
    (condition : Expr)
    (hBody : Embraced s t) :
    Embraced (.whileDo condition s) (.whileDo condition t)

end Stmt

end OcScript

------------------------------------------------------------
-- Scopes With an Empty Frame More
------------------------------------------------------------

namespace OcScript

namespace Scopes

/-
  The first scopes have an empty frame that the second ones
  do not have, with so many frames inside of it.
-/
inductive Padded : Nat → Scopes → Scopes → Prop where
| here
    (scopes : Scopes) :
    Padded 0 scopes.enter scopes
| inner
    {depth : Nat}
    {scopes others : Scopes}
    (frame : Frame)
    (hOuter : Padded depth scopes others) :
    Padded (depth + 1) (frame :: scopes) (frame :: others)

namespace Padded

variable {depth : Nat}
variable {scopes others : Scopes}

/- All names have the same values. -/
theorem get?_eq
    (hPadded : Padded depth scopes others)
    (name : String) :
    others.get? name = scopes.get? name := by
  induction hPadded with
  | here scopes =>
      exact (get?_enter scopes name).symm
  | inner frame hOuter ih =>
      rw [get?, get?, ih]

/- The empty frame stays empty when a name is assigned. -/
theorem assign?_rel
    (hPadded : Padded depth scopes others)
    (name : String)
    (value : Value) :
    Option.Rel (Padded depth)
      (scopes.assign? name value)
      (others.assign? name value) := by
  induction hPadded with
  | here scopes =>
      have hEmpty : name ∉ (∅ : Frame) :=
        Std.ExtTreeMap.not_mem_empty
      rw [enter, assign?, if_neg hEmpty]
      cases scopes.assign? name value with
      | none =>
          exact .none
      | some assigned =>
          exact .some (.here assigned)
  | @inner depth scopes others frame hOuter ih =>
      rw [assign?, assign?]
      by_cases hMem : name ∈ frame
      · rw [if_pos hMem, if_pos hMem]
        exact .some (.inner _ hOuter)
      · rw [if_neg hMem, if_neg hMem]
        generalize scopes.assign? name value = first,
          others.assign? name value = second at ih ⊢
        cases ih with
        | none =>
            exact .none
        | some hAssigned =>
            exact .some (.inner frame hAssigned)

/- Inside of another frame, names are declared in that. -/
theorem declare
    (hPadded : Padded (depth + 1) scopes others)
    (name : String)
    (value : Value) :
    Padded (depth + 1) (scopes.declare name value)
      (others.declare name value) := by
  cases hPadded with
  | inner frame hOuter =>
      exact .inner _ hOuter

theorem enter
    (hPadded : Padded depth scopes others) :
    Padded (depth + 1) scopes.enter others.enter :=
  .inner ∅ hPadded

theorem leave
    (hPadded : Padded (depth + 1) scopes others) :
    Padded depth scopes.leave others.leave := by
  cases hPadded with
  | inner frame hOuter =>
      exact hOuter

/- Without the empty frame there is no difference. -/
theorem leave_eq
    (hPadded : Padded 0 scopes others) :
    scopes.leave = others := by
  cases hPadded with
  | here =>
      rfl

end Padded

end Scopes

end OcScript

------------------------------------------------------------
-- Lockstep With an Empty Frame More
------------------------------------------------------------

namespace OcScript

open Machine (Alike)
open Scopes (Padded)

variable {W : Type}

theorem Execution.lockstep_evaluate_padded
    (depth : Nat)
    (e : Expr) :
    Lockstep (Alike (W := W) Eq (Padded depth)) (evaluate e)
      (evaluate e) := by
  apply lockstep_evaluate
  apply Expr.lockstep_self
  intro name _
  apply Evaluation.namesAlike_of_scopes
  · intro scopes others hPadded
    exact hPadded.get?_eq name.lexeme
  · intro value scopes others hPadded
    exact hPadded.assign?_rel name.lexeme value

theorem Execution.lockstep_declare_padded
    (depth : Nat)
    (name : Token)
    (value : Value) :
    Lockstep (Alike (W := W) Eq (Padded (depth + 1)))
      (declare name value) (declare name value) := by
  apply lockstep_declare
  intro scopes others hPadded
  exact hPadded.declare name.lexeme value

namespace Stmt

open Execution (lockstep_evaluate_padded
  lockstep_declare_padded)

variable [Writer W]

/-
  A statement does the same with an empty frame more, if it
  declares nothing in that frame.
-/
theorem lockstep_padded
    (allowance depth : Nat)
    {s : Stmt}
    (hPlain : depth = 0 → s.declaresHere = false) :
    Lockstep (Alike (W := W) Eq (Padded depth))
      (s.exec allowance) (s.exec allowance) := by
  induction s generalizing depth with
  | expression value =>
      apply (lockstep_evaluate_padded depth value).bind
      intro _
      exact Lockstep.pure ()
  | print keyword value =>
      apply (lockstep_evaluate_padded depth value).bind
      intro printed
      exact Execution.lockstep_useSink keyword (.refl _)
  | declare name initial =>
      cases depth with
      | zero =>
          cases hPlain rfl
      | succ depth =>
          cases initial with
          | none =>
              exact lockstep_declare_padded depth name .null
          | some initial =>
              apply (lockstep_evaluate_padded _ initial).bind
              intro value
              exact lockstep_declare_padded depth name value
  | block body ih =>
      -- Whatever its members declare is one frame deeper.
      have hBody :
          Lockstep (Alike (W := W) Eq (Padded (depth + 1)))
            (execAll allowance body)
            (execAll allowance body) := by
        apply lockstep_execAll_of_forall
        intro s hMem
        apply ih s hMem
        intro hZero
        cases hZero
      apply Execution.lockstep_inNewScope _ _ hBody
      · intro scopes others hPadded
        exact hPadded.enter
      · intro scopes others hPadded
        exact hPadded.leave
  | ifThen condition thenBranch ih =>
      apply (lockstep_evaluate_padded depth condition).bind
      intro value
      split
      · exact ih depth hPlain
      · exact Lockstep.pure ()
  | ifElse condition thenBranch elseBranch thenIH elseIH =>
      simp only [declaresHere, Bool.or_eq_false_iff] at hPlain
      apply (lockstep_evaluate_padded depth condition).bind
      intro value
      split
      · exact thenIH depth fun hZero => (hPlain hZero).1
      · exact elseIH depth fun hZero => (hPlain hZero).2
  | whileDo condition body ih =>
      have hCondition :=
        (lockstep_evaluate_padded (W := W) depth
          condition).map Value.truthy
      exact
        Execution.lockstep_repeatWhile hCondition
          (ih depth hPlain) allowance
  | skipped =>
      exact Lockstep.pure ()

end Stmt

end OcScript

------------------------------------------------------------
-- Blocks That Declare Nothing
------------------------------------------------------------

namespace OcScript

open Machine (Alike)
open Scopes (Padded)

variable {W : Type}

/-
  In a scope of its own, an execution does what it does
  without one, if it leaves that scope empty.
-/
theorem Execution.inNewScope_eq_self
    {action : Execution W Unit}
    (hAction :
      Lockstep (Alike Eq (Padded 0)) action action) :
    inNewScope action = action := by
  funext machine
  have hSame :=
    hAction { machine with scopes := machine.scopes.enter }
      machine ⟨rfl, .here machine.scopes⟩
  unfold inNewScope
  generalize
    action { machine with scopes := machine.scopes.enter } =
      first,
    action machine = second at hSame ⊢
  cases hSame with
  | @ok _ after left hAlike =>
      rcases after with ⟨scopes, sink⟩
      rcases left with ⟨others, _⟩
      rcases hAlike with ⟨rfl, hPadded⟩
      simp only [hPadded.leave_eq]
  | @error _ after left hAlike =>
      rcases after with ⟨scopes, sink⟩
      rcases left with ⟨others, _⟩
      rcases hAlike with ⟨rfl, hPadded⟩
      simp only [hPadded.leave_eq]

namespace Stmt

open Execution (EndAlike Ending Ends)

variable [Writer W]

/- With any allowance, the block does what its body does. -/
theorem exec_block_plain
    (allowance : Nat)
    {body : List Stmt}
    (hPlain : ∀ s ∈ body, s.declaresHere = false) :
    ((Stmt.block body).exec allowance : Execution W Unit) =
      execAll allowance body := by
  apply Execution.inNewScope_eq_self
  apply lockstep_execAll_of_forall
  intro s hMem
  exact lockstep_padded allowance 0 fun _ => hPlain s hMem

/- A member that does the same may stand in for another. -/
theorem execAll_eq_of_member
    {allowance : Nat}
    {s t : Stmt}
    (hSame :
      (t.exec allowance : Execution W Unit) =
        s.exec allowance)
    (front back : List Stmt) :
    (execAll allowance (front ++ t :: back) :
        Execution W Unit) =
      execAll allowance (front ++ s :: back) := by
  induction front with
  | nil =>
      simp only [List.nil_append, execAll, hSame]
  | cons first front ih =>
      simp only [List.cons_append, execAll, ih]

/- More braces do not change what a statement does. -/
theorem Embraced.exec_eq
    {s t : Stmt}
    (hEmbraced : Embraced s t)
    (allowance : Nat) :
    (t.exec allowance : Execution W Unit) =
      s.exec allowance := by
  induction hEmbraced with
  | refl s =>
      rfl
  | trans hFirst hLast firstIH lastIH =>
      exact lastIH.trans firstIH
  | @braces s hPlain =>
      have hMembers : ∀ t ∈ [s], t.declaresHere = false := by
        simpa using hPlain
      rw [exec_block_plain allowance hMembers]
      simp [execAll]
  | block front back hMember ih =>
      simp only [exec, execAll_eq_of_member ih]
  | ifThen condition hBranch ih =>
      simp only [exec, ih]
  | ifElse condition hThen hElse thenIH elseIH =>
      simp only [exec, thenIH, elseIH]
  | whileDo condition hBody ih =>
      simp only [exec, ih]

/-
  A block that declares nothing of its own is transparent:
  from every machine, the block and its statements without
  it diverge both or end alike, with the same failure or
  none, the same output, and the same scopes.  So it never
  matters which statements that declare nothing are put in
  braces, be they branches or the bodies of loops.
-/
theorem plain_block_is_transparent
    (machine : Machine W)
    (body : List Stmt)
    (hPlain : ∀ s ∈ body, s.declaresHere = false) :
    EndAlike ((Stmt.block body).exec ·) (execAll · body)
        machine ∧
      ∀ s t,
        Embraced s t →
        EndAlike (s.exec ·) (t.exec ·) machine := by
  refine ⟨?_, ?_⟩
  · apply (steady_exec (.block body)).endAlike_of_eq
    intro allowance
    exact (exec_block_plain allowance hPlain).symm
  · intro s t hEmbraced
    apply (steady_exec s).endAlike_of_eq
    exact hEmbraced.exec_eq

/-
  Statements that change `a` in a loop, print another `a`
  in a block, and then fail.
-/
def clearing : List Stmt :=
  let a : Token := ⟨.identifier, "a", 1⟩
  let minus : Token := ⟨.symbol .minus, "-", 3⟩
  let est : Token := ⟨.keyword .printWord, "est", 2⟩
  [.whileDo (.var a) (.expression (.assign a (.literal .null))),
    .block
      [.declare a (some (.literal (.str "x"))),
        .print est (.var a)],
    .expression (.unary minus (.var a))]

/-
  With or without the braces, the inner name is printed, the
  outer one is cleared, and the last statement fails.
-/
theorem plain_block_is_transparent_clearing :
    let a := (∅ : Frame).insert "a" (.str "y")
    let machine : Machine Sink := ⟨[a], .unbounded⟩
    let minus : Token := ⟨.symbol .minus, "-", 3⟩
    let blocked := Stmt.block clearing
    (∀ s ∈ clearing, s.declaresHere = false) ∧
      ∃ ending,
        Ends (blocked.exec ·) machine ending ∧
          Ends (execAll · clearing) machine ending ∧
          ending.failure? = some ⟨minus, .operandNotNumber⟩ ∧
          ending.machine.sink.written = "x\n".toUTF8 ∧
          ending.machine.scopes.length = 1 ∧
          ending.machine.scopes.get? "a" = some .null := by
  intro a machine minus blocked
  have hPlain : ∀ s ∈ clearing, s.declaresHere = false := by
    decide +kernel
  have hShown :
      (Ending.ofResult? (blocked.exec 2 machine)).map
          (fun ending =>
            (ending.failure?, ending.machine.sink.written,
              ending.machine.scopes.length,
              ending.machine.scopes.get? "a")) =
        some
          (some ⟨minus, .operandNotNumber⟩, "x\n".toUTF8, 1,
            some .null) := by
    decide +kernel
  rcases Option.map_eq_some_iff.mp hShown with
    ⟨ending, hEnding, hFields⟩
  simp only [Prod.mk.injEq] at hFields
  have hEnds : Ends (blocked.exec ·) machine ending :=
    (steady_exec blocked).ends_of_eq
      (Ending.result_of_ofResult? hEnding)
  have hAlike :=
    plain_block_is_transparent machine clearing hPlain
  exact
    ⟨hPlain, ending, hEnds, hAlike.1.of_ends hEnds, hFields⟩

end Stmt

end OcScript
