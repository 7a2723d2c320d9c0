import OcScript.Proofs.Exec.Allowance
import OcScript.Run

/-
  This file relates the machine before an execution to the
  machine after it, however the execution ends.

  A reflexive and transitive relation along which every
  primitive step moves the machine is one along which every
  statement moves it.  If it speaks of the frames outside of
  the innermost one only, assignments are the only steps to
  look at.  The first such relation says that the sink is
  only ever written to: its bytes stay, its limits stay, and
  what was written since can be cut in two where the
  execution is cut in two.

  Key definitions include:
    * `OcScript.stateAfter`
    * `OcScript.Execution.Keeps`
    * `OcScript.Execution.Preordered`
    * `OcScript.Execution.KeptBy`
    * `OcScript.Execution.Kept`
    * `OcScript.Scopes.KeptBy`
    * `OcScript.Sink.Extends`

  Key theorems include:
    * `OcScript.Execution.KeptBy.exec`
    * `OcScript.Execution.KeptBy.execAll`
    * `OcScript.Execution.keeps_block`
    * `OcScript.Execution.kept_extends`
    * `OcScript.Run.writtenSince_append`
-/

------------------------------------------------------------
-- Relations Along an Execution
------------------------------------------------------------

namespace OcScript

/- The state that a computation leaves, however it ends. -/
def stateAfter
    {ε σ α : Type}
    (x : EStateM ε σ α)
    (s : σ) :
    σ :=
  match x s with
  | .ok _ after => after
  | .error _ after => after

theorem stateAfter_congr
    {ε σ α : Type}
    {x y : EStateM ε σ α}
    {s t : σ}
    (hResult : x s = y t) :
    stateAfter x s = stateAfter y t := by
  unfold stateAfter
  rw [hResult]

section Bind

variable {ε σ α β : Type}
variable {x : EStateM ε σ α}
variable {k : α → EStateM ε σ β}
variable {s t : σ}

theorem bind_eq_of_ok
    {a : α}
    (hResult : x s = .ok a t) :
    (x >>= k) s = k a t := by
  simp only [bind, EStateM.bind, hResult]

theorem bind_eq_of_error
    {e : ε}
    (hResult : x s = .error e t) :
    (x >>= k) s = .error e t := by
  simp only [bind, EStateM.bind, hResult]

theorem exists_of_map_eq_ok
    {g : α → β}
    {b : β}
    (hResult : (g <$> x) s = .ok b t) :
    ∃ a, x s = .ok a t ∧ g a = b := by
  simp only [Functor.map, EStateM.map] at hResult
  cases hFirst : x s with
  | ok a after =>
      rw [hFirst] at hResult
      cases hResult
      exact ⟨a, rfl, rfl⟩
  | error e after =>
      rw [hFirst] at hResult
      cases hResult

end Bind

/- Changing errors does not change the state left. -/
theorem stateAfter_adaptExcept
    {ε ε' σ α : Type}
    (change : ε → ε')
    (x : EStateM ε σ α)
    (s : σ) :
    stateAfter (EStateM.adaptExcept change x) s =
      stateAfter x s := by
  unfold stateAfter EStateM.adaptExcept
  cases x s with
  | ok a after =>
      rfl
  | error e after =>
      rfl

namespace Execution

variable {W : Type}

/- The execution always moves the machine along `R`. -/
def Keeps
    {α : Type}
    (R : Machine W → Machine W → Prop)
    (x : Execution W α) :
    Prop :=
  ∀ machine, R machine (stateAfter x machine)

/- A reflexive and transitive relation on machines. -/
structure Preordered
    (R : Machine W → Machine W → Prop) :
    Prop where
  refl : ∀ machine, R machine machine
  trans : ∀ {a b c}, R a b → R b c → R a c

namespace Preordered

variable {R : Machine W → Machine W → Prop}

theorem pure
    {α : Type}
    (hOrder : Preordered R)
    (a : α) :
    Keeps R (pure a : Execution W α) :=
  hOrder.refl

/- The rest moves on from where the first part ended. -/
theorem rest
    {α β : Type}
    (hOrder : Preordered R)
    (x : Execution W α)
    {k : α → Execution W β}
    (hRest : ∀ a, Keeps R (k a))
    (machine : Machine W) :
    R (stateAfter x machine)
      (stateAfter (x >>= k) machine) := by
  simp only [stateAfter, Bind.bind, EStateM.bind]
  cases x machine with
  | ok a after =>
      exact hRest a after
  | error stop after =>
      exact hOrder.refl after

theorem bind
    {α β : Type}
    (hOrder : Preordered R)
    {x : Execution W α}
    {k : α → Execution W β}
    (hFirst : Keeps R x)
    (hRest : ∀ a, Keeps R (k a)) :
    Keeps R (x >>= k) := by
  intro machine
  exact
    hOrder.trans (hFirst machine)
      (hOrder.rest x hRest machine)

theorem map
    {α β : Type}
    (hOrder : Preordered R)
    {x : Execution W α}
    (hFirst : Keeps R x)
    (g : α → β) :
    Keeps R (g <$> x) := by
  rw [map_eq_pure_bind]
  apply hOrder.bind hFirst
  intro a
  exact hOrder.pure (g a)

theorem repeatWhile
    (hOrder : Preordered R)
    {condition : Execution W Bool}
    {body : Execution W Unit}
    (hCondition : Keeps R condition)
    (hBody : Keeps R body)
    (allowance : Nat) :
    Keeps R (repeatWhile allowance condition body) := by
  induction allowance with
  | zero =>
      exact hOrder.refl
  | succ allowance ih =>
      apply hOrder.bind hCondition
      intro again
      cases again with
      | false =>
          exact hOrder.pure ()
      | true =>
          apply hOrder.bind hBody
          intro _
          exact ih

/- If the members move machines along it, so does a list. -/
theorem execAll_of_forall
    [Writer W]
    (hOrder : Preordered R)
    {allowance : Nat}
    {body : List Stmt}
    (hMembers : ∀ s ∈ body, Keeps R (s.exec allowance)) :
    Keeps R (Stmt.execAll allowance body) := by
  induction body with
  | nil =>
      exact hOrder.pure ()
  | cons s rest ih =>
      rw [List.forall_mem_cons] at hMembers
      apply hOrder.bind hMembers.1
      intro _
      exact ih hMembers.2

end Preordered

/- The machine of an ending is the one that was left. -/
theorem Ending.stateAfter_eq
    {x : Execution W Unit}
    {machine : Machine W}
    {ending : Ending W}
    (hResult : x machine = ending.result) :
    stateAfter x machine = ending.machine := by
  unfold stateAfter
  rw [hResult]
  rcases ending with ⟨_ | error, after⟩
  · rfl
  · rfl

/- What is kept with any allowance is kept at the end. -/
theorem Ends.kept
    {x : Nat → Execution W Unit}
    {machine : Machine W}
    {ending : Ending W}
    (hEnds : Ends x machine ending)
    {R : Machine W → Machine W → Prop}
    (hKeeps : ∀ allowance, Keeps R (x allowance)) :
    R machine ending.machine := by
  rcases hEnds with ⟨enough, hEnds⟩
  have hResult := hEnds enough (Nat.le_refl enough)
  rw [← Ending.stateAfter_eq hResult]
  exact hKeeps enough machine

variable [Writer W]

/-
  The relation is a preorder along which every primitive
  step moves the machine, and scopes of their own do not
  disturb it.
-/
structure Kept
    (R : Machine W → Machine W → Prop) :
    Prop extends Preordered R where
  evaluate : ∀ e, Keeps R (evaluate e)
  printLine :
    ∀ keyword text, Keeps R (printLine keyword text)
  declare : ∀ name value, Keeps R (declare name value)
  inNewScope :
    ∀ action, Keeps R action → Keeps R (inNewScope action)

/-
  The relation is a preorder along which every expression of
  the parts moves the machine, and every other primitive
  step, too.
-/
structure KeptBy
    (parts : List Stmt)
    (R : Machine W → Machine W → Prop) :
    Prop extends Preordered R where
  evaluate :
    ∀ s ∈ parts,
      ∀ e ∈ s.expressions, Keeps R (Execution.evaluate e)
  printLine :
    ∀ keyword text, Keeps R (printLine keyword text)
  declare : ∀ name value, Keeps R (declare name value)
  inNewScope :
    ∀ action, Keeps R action → Keeps R (inNewScope action)

namespace KeptBy

variable {R : Machine W → Machine W → Prop}

/- Fewer parts ask for less. -/
theorem mono
    {parts fewer : List Stmt}
    (hKept : KeptBy parts R)
    (hFewer : fewer ⊆ parts) :
    KeptBy fewer R :=
  { hKept with
    evaluate := fun s hMem =>
      hKept.evaluate s (hFewer hMem) }

/- The expressions of the first part keep the relation. -/
theorem first
    {s : Stmt}
    {rest : List Stmt}
    (hKept : KeptBy (s :: rest) R)
    {e : Expr}
    (hMem : e ∈ s.expressions) :
    Keeps R (Execution.evaluate e) :=
  hKept.evaluate s (List.mem_cons_self ..) e hMem

/- A statement moves the machine as its parts do. -/
theorem exec
    (allowance : Nat)
    {s : Stmt}
    (hKept : KeptBy s.parts R) :
    Keeps R (s.exec allowance) := by
  induction s with
  | expression value =>
      apply
        hKept.bind (hKept.first (List.mem_singleton_self value))
      intro _
      exact hKept.pure ()
  | print keyword value =>
      apply
        hKept.bind (hKept.first (List.mem_singleton_self value))
      intro printed
      exact hKept.printLine keyword printed.text
  | declare name initial =>
      cases initial with
      | none =>
          exact hKept.declare name .null
      | some initial =>
          apply
            hKept.bind
              (hKept.first (List.mem_singleton_self initial))
          intro value
          exact hKept.declare name value
  | block body ih =>
      apply hKept.inNewScope
      apply hKept.execAll_of_forall
      intro s hMem
      apply ih s hMem
      apply hKept.mono
      apply List.subset_cons_of_subset
      exact Stmt.parts_subset_partsAll hMem
  | ifThen condition thenBranch ih =>
      apply
        hKept.bind
          (hKept.first (List.mem_singleton_self condition))
      intro value
      split
      · exact ih (hKept.mono (List.subset_cons_self ..))
      · exact hKept.pure ()
  | ifElse condition thenBranch elseBranch thenIH elseIH =>
      have hInner := hKept.mono (List.subset_cons_self ..)
      apply
        hKept.bind
          (hKept.first (List.mem_singleton_self condition))
      intro value
      split
      · exact
          thenIH (hInner.mono (List.subset_append_left ..))
      · exact
          elseIH (hInner.mono (List.subset_append_right ..))
  | whileDo condition body ih =>
      have hCondition :=
        hKept.map
          (hKept.first (List.mem_singleton_self condition))
          Value.truthy
      have hBody :=
        ih (hKept.mono (List.subset_cons_self ..))
      exact hKept.repeatWhile hCondition hBody allowance
  | skipped =>
      exact hKept.pure ()

/- So do statements in order. -/
theorem execAll
    (allowance : Nat)
    {body : List Stmt}
    (hKept : KeptBy (Stmt.partsAll body) R) :
    Keeps R (Stmt.execAll allowance body) := by
  apply hKept.execAll_of_forall
  intro s hMem
  apply exec
  exact hKept.mono (Stmt.parts_subset_partsAll hMem)

end KeptBy

namespace Kept

variable {R : Machine W → Machine W → Prop}

/- What all expressions keep is kept by those of parts. -/
theorem keptBy
    (hKept : Kept R)
    (parts : List Stmt) :
    KeptBy parts R :=
  { hKept with
    evaluate := fun _ _ e _ => hKept.evaluate e }

/- Every statement moves the machine along the relation. -/
theorem exec
    (hKept : Kept R)
    (allowance : Nat)
    (s : Stmt) :
    Keeps R (s.exec allowance) :=
  (hKept.keptBy s.parts).exec allowance

/- So do statements in order. -/
theorem execAll
    (hKept : Kept R)
    (allowance : Nat)
    (body : List Stmt) :
    Keeps R (Stmt.execAll allowance body) :=
  (hKept.keptBy (Stmt.partsAll body)).execAll allowance

end Kept

end Execution

end OcScript

------------------------------------------------------------
-- Relations Between Scopes
------------------------------------------------------------

namespace OcScript

namespace Scopes

/-
  The relation is a preorder that holds of the outer frames
  alone where it holds of all, and assigning any of the
  names moves the scopes along it.
-/
structure KeptBy
    (names : List String)
    (S : Scopes → Scopes → Prop) :
    Prop where
  refl : ∀ scopes, S scopes scopes
  trans : ∀ {a b c}, S a b → S b c → S a c
  tail : ∀ {a b}, S a b → S a.tail b.tail
  assign? :
    ∀ {name value scopes assigned},
      name ∈ names →
      scopes.assign? name value = some assigned →
      S scopes assigned

end Scopes

namespace Evaluation

variable {α β : Type}

/- The evaluation always moves the scopes along `S`. -/
def Keeps
    (S : Scopes → Scopes → Prop)
    (x : Evaluation α) :
    Prop :=
  ∀ scopes, S scopes (stateAfter x scopes)

variable {names : List String}
variable {S : Scopes → Scopes → Prop}

theorem keeps_pure
    (hKept : Scopes.KeptBy names S)
    (a : α) :
    Keeps S (pure a) :=
  hKept.refl

theorem keeps_ofExcept
    (hKept : Scopes.KeptBy names S)
    (x : Except RuntimeError α) :
    Keeps S (ofExcept x : Evaluation α) := by
  intro scopes
  cases x with
  | ok a =>
      exact hKept.refl scopes
  | error error =>
      exact hKept.refl scopes

theorem keeps_bind
    (hKept : Scopes.KeptBy names S)
    {x : Evaluation α}
    {k : α → Evaluation β}
    (hFirst : Keeps S x)
    (hRest : ∀ a, Keeps S (k a)) :
    Keeps S (x >>= k) := by
  intro scopes
  have hBetween := hFirst scopes
  simp only [stateAfter, Bind.bind, EStateM.bind]
    at hBetween ⊢
  cases hResult : x scopes with
  | ok a between =>
      rw [hResult] at hBetween
      exact hKept.trans hBetween (hRest a between)
  | error error between =>
      rw [hResult] at hBetween
      exact hBetween

theorem keeps_read
    (hKept : Scopes.KeptBy names S)
    (name : Token) :
    Keeps S (read name) := by
  intro scopes
  unfold stateAfter read
  cases scopes.read name with
  | ok value =>
      exact hKept.refl scopes
  | error error =>
      exact hKept.refl scopes

theorem keeps_assign
    (hKept : Scopes.KeptBy names S)
    {name : Token}
    (hName : name.lexeme ∈ names)
    (value : Value) :
    Keeps S (assign name value) := by
  intro scopes
  unfold stateAfter assign Scopes.assign
  cases hAssigned :
      scopes.assign? name.lexeme value with
  | some assigned =>
      exact hKept.assign? hName hAssigned
  | none =>
      exact hKept.refl scopes

end Evaluation

namespace Expr

open Evaluation

/- An expression moves the scopes as its assignments do. -/
theorem keeps_eval
    {names : List String}
    {S : Scopes → Scopes → Prop}
    (hKept : Scopes.KeptBy names S)
    {e : Expr}
    (hNames : e.assignedNames ⊆ names) :
    Keeps S e.eval := by
  induction e with
  | literal value =>
      exact keeps_pure hKept value
  | group inner ih =>
      exact ih hNames
  | unary operator operand ih =>
      apply keeps_bind hKept (ih hNames)
      intro value
      exact keeps_ofExcept hKept _
  | binary left operator right leftIH rightIH =>
      rw [assignedNames, List.append_subset] at hNames
      apply keeps_bind hKept (leftIH hNames.1)
      intro leftValue
      apply keeps_bind hKept (rightIH hNames.2)
      intro rightValue
      exact keeps_ofExcept hKept _
  | logical left operator right leftIH rightIH =>
      rw [assignedNames, List.append_subset] at hNames
      apply keeps_bind hKept (leftIH hNames.1)
      intro leftValue
      apply keeps_bind hKept (keeps_ofExcept hKept _)
      intro decided
      split
      · exact keeps_pure hKept leftValue
      · exact rightIH hNames.2
  | var name =>
      exact keeps_read hKept name
  | assign name value ih =>
      rw [assignedNames, List.cons_subset] at hNames
      apply keeps_bind hKept (ih hNames.2)
      intro newValue
      apply
        keeps_bind hKept (keeps_assign hKept hNames.1 newValue)
      intro _
      exact keeps_pure hKept newValue

end Expr

namespace Execution

variable {W : Type}

/- The scopes before and after are related. -/
abbrev OnScopes
    (S : Scopes → Scopes → Prop)
    (before after : Machine W) :
    Prop :=
  S before.scopes after.scopes

/- All frames but the innermost one are related. -/
abbrev OnOuterScopes
    (S : Scopes → Scopes → Prop)
    (before after : Machine W) :
    Prop :=
  S before.scopes.tail after.scopes.tail

variable {S : Scopes → Scopes → Prop}

theorem keeps_evaluate
    {e : Expr}
    (hEval : Evaluation.Keeps S e.eval) :
    Keeps (W := W) (OnScopes S) (evaluate e) := by
  intro machine
  have hScopes := hEval machine.scopes
  simp only [stateAfter, evaluate] at hScopes ⊢
  cases hResult : e.eval machine.scopes with
  | ok value scopes =>
      rw [hResult] at hScopes
      exact hScopes
  | error error scopes =>
      rw [hResult] at hScopes
      exact hScopes

/- Writing leaves the scopes alone. -/
theorem keeps_printLine
    [Writer W]
    (hRefl : ∀ scopes, S scopes scopes)
    (keyword : Token)
    (text : String) :
    Keeps (W := W) (OnScopes S)
      (printLine keyword text) := by
  intro machine
  unfold stateAfter printLine useSink
  cases Writer.write (text ++ "\n").toUTF8 machine.sink with
  | ok _ sink =>
      exact hRefl machine.scopes
  | error error sink =>
      exact hRefl machine.scopes

/- A declaration changes the innermost frame only. -/
theorem keeps_declare
    (hRefl : ∀ scopes, S scopes scopes)
    (name : Token)
    (value : Value) :
    Keeps (W := W) (OnOuterScopes S)
      (declare name value) := by
  intro machine
  rcases machine with ⟨scopes, sink⟩
  cases scopes with
  | nil =>
      exact hRefl []
  | cons frame outer =>
      exact hRefl outer

/-
  In a scope of its own, all frames around it are outer ones,
  and the innermost frame is gone at the end.
-/
theorem keeps_inNewScope
    {action : Execution W Unit}
    (hAction : Keeps (OnOuterScopes S) action) :
    Keeps (OnScopes S) (inNewScope action) := by
  intro machine
  have hInner :=
    hAction { machine with scopes := machine.scopes.enter }
  simp only [stateAfter, inNewScope] at hInner ⊢
  cases hResult :
      action
        { machine with scopes := machine.scopes.enter } with
  | ok _ after =>
      rw [hResult] at hInner
      exact hInner
  | error stop after =>
      rw [hResult] at hInner
      exact hInner

/-
  The outer frames are moved by assignments alone, so by
  those of the statements that are executed.
-/
theorem keptBy_outerScopes
    [Writer W]
    {body : List Stmt}
    (hKept : Scopes.KeptBy (Stmt.assignedNames body) S) :
    KeptBy (W := W) (Stmt.partsAll body)
      (OnOuterScopes S) where
  refl machine := hKept.refl machine.scopes.tail
  trans := hKept.trans
  evaluate s hPart e hMem machine := by
    have hNames := Stmt.assignedNames_subset hPart hMem
    have hEval := Expr.keeps_eval hKept hNames
    exact hKept.tail (keeps_evaluate hEval machine)
  printLine keyword text machine :=
    hKept.tail
      (keeps_printLine hKept.refl keyword text machine)
  declare := keeps_declare hKept.refl
  inNewScope _ hAction machine :=
    hKept.tail (keeps_inNewScope hAction machine)

/- A block moves all frames around it in this way. -/
theorem keeps_block
    [Writer W]
    (allowance : Nat)
    {body : List Stmt}
    (hKept : Scopes.KeptBy (Stmt.assignedNames body) S) :
    Keeps (W := W) (OnScopes S)
      ((Stmt.block body).exec allowance) :=
  keeps_inNewScope
    ((keptBy_outerScopes hKept).execAll allowance)

end Execution

end OcScript

------------------------------------------------------------
-- Sinks Only Grow
------------------------------------------------------------

namespace OcScript

namespace Sink

/- The later sink holds more bytes and is limited alike. -/
structure Extends
    (before after : Sink) :
    Prop where
  capacity : after.capacity = before.capacity
  flushes : after.flushes = before.flushes
  written :
    ∃ bytes, after.written = before.written ++ bytes

namespace Extends

theorem refl
    (sink : Sink) :
    sink.Extends sink :=
  ⟨rfl, rfl, .empty, ByteArray.append_empty.symm⟩

theorem trans
    {a b c : Sink}
    (hFirst : a.Extends b)
    (hLast : b.Extends c) :
    a.Extends c := by
  rcases hFirst.written with ⟨early, hEarly⟩
  rcases hLast.written with ⟨late, hLate⟩
  refine ⟨?_, ?_, early ++ late, ?_⟩
  · rw [hLast.capacity, hFirst.capacity]
  · rw [hLast.flushes, hFirst.flushes]
  · rw [hLate, hEarly, ByteArray.append_assoc]

end Extends

/- Writing extends a sink, also when it fails. -/
theorem extends_write
    (bytes : ByteArray)
    (sink : Sink) :
    sink.Extends (stateAfter (write bytes) sink) := by
  rcases sink with ⟨written, capacity, flushes⟩
  cases capacity with
  | none =>
      exact ⟨rfl, rfl, bytes, rfl⟩
  | some capacity =>
      by_cases hFits : bytes.size ≤ capacity - written.size
      · simp only [stateAfter, write, if_pos hFits]
        exact ⟨rfl, rfl, bytes, rfl⟩
      · simp only [stateAfter, write, if_neg hFits]
        exact ⟨rfl, rfl, _, rfl⟩

end Sink

namespace Execution

/- Executions move machines along growing sinks. -/
theorem kept_extends :
    Kept (W := Sink) fun before after =>
      before.sink.Extends after.sink := by
  refine ⟨⟨?_, ?_⟩, ?_, ?_, ?_, ?_⟩
  · intro machine
    exact Sink.Extends.refl machine.sink
  · intro a b c hFirst hLast
    exact hFirst.trans hLast
  · intro e machine
    have hSame :
        (stateAfter (evaluate e) machine).sink =
          machine.sink := by
      unfold stateAfter evaluate
      cases e.eval machine.scopes with
      | ok value scopes =>
          rfl
      | error error scopes =>
          rfl
    rw [hSame]
    exact Sink.Extends.refl machine.sink
  · intro keyword text machine
    have hWrite :=
      Sink.extends_write (text ++ "\n").toUTF8 machine.sink
    simp only [stateAfter, printLine, useSink,
      Sink.write_eq] at hWrite ⊢
    cases hResult :
        Sink.write (text ++ "\n").toUTF8 machine.sink with
    | ok _ sink =>
        rw [hResult] at hWrite
        exact hWrite
    | error error sink =>
        rw [hResult] at hWrite
        exact hWrite
  · intro name value machine
    exact Sink.Extends.refl machine.sink
  · intro action hAction machine
    have hInner :=
      hAction
        { machine with scopes := machine.scopes.enter }
    simp only [stateAfter, inNewScope] at hInner ⊢
    cases hResult :
        action
          { machine with scopes := machine.scopes.enter } with
    | ok _ after =>
        rw [hResult] at hInner
        exact hInner
    | error stop after =>
        rw [hResult] at hInner
        exact hInner

end Execution

namespace Run

/- Nothing is written between a sink and itself. -/
theorem writtenSince_self
    (sink : Sink) :
    writtenSince sink sink = .empty :=
  ByteArray.extract_same

/- The bytes added to a sink are those written since. -/
theorem writtenSince_eq
    {before after : Sink}
    {bytes : ByteArray}
    (hWritten : after.written = before.written ++ bytes) :
    writtenSince before after = bytes := by
  simp only [writtenSince, Sink.written_eq, hWritten,
    ByteArray.size_append]
  exact ByteArray.extract_append_eq_right rfl rfl

/-
  What was written since an early sink is what was written
  until a later one, and what was written since then.
-/
theorem writtenSince_append
    {early middle late : Sink}
    (hFirst : early.Extends middle)
    (hLast : middle.Extends late) :
    writtenSince early middle ++ writtenSince middle late =
      writtenSince early late := by
  rcases hFirst.written with ⟨first, hMiddle⟩
  rcases hLast.written with ⟨last, hLate⟩
  have hWhole :
      late.written = early.written ++ (first ++ last) := by
    rw [hLate, hMiddle, ByteArray.append_assoc]
  rw [writtenSince_eq hMiddle, writtenSince_eq hLate,
    writtenSince_eq hWhole]

end Run

end OcScript
