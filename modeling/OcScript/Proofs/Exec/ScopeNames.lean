import Mathlib.Data.List.Forall2
import Mathlib.Data.Set.Insert
import OcScript.Proofs.Exec.Keeps
import OcScript.Proofs.Parse.WrittenForm

/-
  This file says which names an execution binds, and where.

  An assignment changes values and never names.  A
  declaration adds its name to the innermost frame.  So the
  frames outside the innermost one keep their names, however
  an execution ends, and a statement that is no declaration
  keeps the names of all frames: what its blocks declare is
  gone when they are left.

  Key definitions include:
    * `OcScript.Frame.KeptBy`
    * `OcScript.Scopes.SameNames`
    * `OcScript.Machine.globalNames`
    * `OcScript.Stmt.declaredNames`
    * `OcScript.Stmt.StopsAfter`

  Key theorems include:
    * `OcScript.Scopes.keptBy_of_frames`
    * `OcScript.Execution.kept_outerNames`
    * `OcScript.Stmt.keeps_names`
    * `OcScript.Stmt.binds_of_execAll_ok`
    * `OcScript.Stmt.StopsAfter.binds`
-/

------------------------------------------------------------
-- Scopes Related Frame by Frame
------------------------------------------------------------

namespace OcScript

/-
  The relation is a preorder, and a new value for one of the
  names that a frame binds moves the frame along it.
-/
structure Frame.KeptBy
    (names : List String)
    (R : Frame → Frame → Prop) :
    Prop where
  refl : ∀ frame, R frame frame
  trans : ∀ {a b c}, R a b → R b c → R a c
  insert :
    ∀ {name frame},
      name ∈ names →
      name ∈ frame →
      ∀ value, R frame (frame.insert name value)

namespace Scopes

variable {names : List String}
variable {R : Frame → Frame → Prop}

/- Only one frame is moved when a name is assigned. -/
theorem forall₂_of_assign?
    (hKept : Frame.KeptBy names R)
    {name : String}
    {value : Value}
    {scopes assigned : Scopes}
    (hName : name ∈ names)
    (hAssigned :
      scopes.assign? name value = some assigned) :
    List.Forall₂ R scopes assigned := by
  induction scopes generalizing assigned with
  | nil =>
      cases hAssigned
  | cons frame outer ih =>
      by_cases hBound : name ∈ frame
      · simp only [assign?, hBound, if_true,
          Option.some.injEq] at hAssigned
        subst hAssigned
        refine .cons (hKept.insert hName hBound value) ?_
        exact List.forall₂_same.mpr fun f _ => hKept.refl f
      · simp only [assign?, hBound, if_false,
          Option.map_eq_some_iff] at hAssigned
        rcases hAssigned with ⟨rest, hRest, rfl⟩
        exact .cons (hKept.refl frame) (ih hRest)

theorem forall₂_trans
    (hKept : Frame.KeptBy names R)
    {a b c : Scopes}
    (hFirst : List.Forall₂ R a b)
    (hLast : List.Forall₂ R b c) :
    List.Forall₂ R a c := by
  induction hFirst generalizing c with
  | nil =>
      exact hLast
  | cons hFrame _ ih =>
      cases hLast with
      | cons hNext hOuter =>
          exact .cons (hKept.trans hFrame hNext) (ih hOuter)

/- What is kept in every frame is kept in the scopes. -/
theorem keptBy_of_frames
    (hKept : Frame.KeptBy names R) :
    KeptBy names (List.Forall₂ R) where
  refl scopes :=
    List.forall₂_same.mpr fun frame _ => hKept.refl frame
  trans := forall₂_trans hKept
  tail hScopes := by
    cases hScopes with
    | nil =>
        exact .nil
    | cons _ hOuter =>
        exact hOuter
  assign? := forall₂_of_assign? hKept

end Scopes

end OcScript

------------------------------------------------------------
-- Scopes That Bind the Same Names
------------------------------------------------------------

namespace OcScript

namespace Frame

/- Both frames bind the same names. -/
def SameNames
    (before after : Frame) :
    Prop :=
  ∀ name, name ∈ after ↔ name ∈ before

/- A new value for a name binds no other name. -/
theorem keptBy_sameNames
    (names : List String) :
    KeptBy names SameNames where
  refl _ _ := Iff.rfl
  trans hFirst hLast name :=
    (hLast name).trans (hFirst name)
  insert := by
    intro name frame _ hBound value other
    by_cases hSame : name = other
    · subst hSame
      simp [hBound]
    · simp [hSame]

end Frame

namespace Scopes

/- The scopes bind the same names, frame by frame. -/
abbrev SameNames
    (before after : Scopes) :
    Prop :=
  List.Forall₂ Frame.SameNames before after

namespace SameNames

/- All assignments keep the names of all frames. -/
theorem keptBy
    (names : List String) :
    KeptBy names SameNames :=
  keptBy_of_frames (Frame.keptBy_sameNames names)

theorem refl
    (scopes : Scopes) :
    scopes.SameNames scopes :=
  (keptBy []).refl scopes

theorem trans
    {a b c : Scopes}
    (hFirst : a.SameNames b)
    (hLast : b.SameNames c) :
    a.SameNames c :=
  (keptBy []).trans hFirst hLast

theorem tail
    {before after : Scopes}
    (hNames : before.SameNames after) :
    SameNames before.tail after.tail :=
  (keptBy []).tail hNames

end SameNames

end Scopes

end OcScript

------------------------------------------------------------
-- Expressions Bind Nothing
------------------------------------------------------------

namespace OcScript

open Scopes (SameNames)

namespace Evaluation

/- The computation binds no names, however it ends. -/
def KeepsNames
    {α : Type}
    (x : Evaluation α) :
    Prop :=
  ∀ scopes, SameNames scopes (stateAfter x scopes)

end Evaluation

namespace Expr

open Evaluation (KeepsNames)

theorem keepsNames_eval
    (e : Expr) :
    KeepsNames e.eval :=
  keeps_eval (SameNames.keptBy e.assignedNames)
    (List.Subset.refl _)

end Expr

end OcScript

------------------------------------------------------------
-- Statements Bind Names in the Innermost Frame
------------------------------------------------------------

namespace OcScript

open Scopes (SameNames)

namespace Execution

variable {W : Type}

/- The names of all frames stay. -/
abbrev NamesStay
    (before after : Machine W) :
    Prop :=
  SameNames before.scopes after.scopes

/- The names of all frames but the innermost one stay. -/
abbrev OuterNamesStay
    (before after : Machine W) :
    Prop :=
  SameNames before.scopes.tail after.scopes.tail

theorem preordered_namesStay :
    Preordered (W := W) NamesStay := by
  refine ⟨?_, ?_⟩
  · intro machine
    exact SameNames.refl machine.scopes
  · intro a b c hFirst hLast
    exact SameNames.trans hFirst hLast

theorem keeps_names_evaluate
    (e : Expr) :
    Keeps (W := W) NamesStay (evaluate e) :=
  keeps_evaluate e.keepsNames_eval

theorem keeps_names_printLine
    [Writer W]
    (keyword : Token)
    (text : String) :
    Keeps (W := W) NamesStay (printLine keyword text) :=
  keeps_printLine SameNames.refl keyword text

/- Whatever is executed, the outer frames keep their names. -/
theorem kept_outerNames
    [Writer W] :
    Kept (W := W) OuterNamesStay where
  refl machine := SameNames.refl machine.scopes.tail
  trans := SameNames.trans
  evaluate e machine := (keeps_names_evaluate e machine).tail
  printLine keyword text machine :=
    (keeps_names_printLine keyword text machine).tail
  declare := keeps_declare SameNames.refl
  inNewScope _ hAction machine :=
    SameNames.tail (keeps_inNewScope hAction machine)

end Execution

namespace Stmt

open Execution

/-
  A statement that is no declaration keeps the names of all
  frames, since a canonical one has no declarations in its
  branches but inside of blocks.
-/
theorem keeps_names
    {W : Type}
    [Writer W]
    (allowance : Nat)
    {s : Stmt}
    (hCanonical : s.Canonical)
    (hStatement : s.isDeclaration = false) :
    Keeps (W := W) NamesStay (s.exec allowance) := by
  have hOrder := preordered_namesStay (W := W)
  induction s with
  | expression value =>
      apply hOrder.bind (keeps_names_evaluate value)
      intro _
      exact hOrder.pure ()
  | print keyword value =>
      apply hOrder.bind (keeps_names_evaluate value)
      intro printed
      exact keeps_names_printLine keyword printed.text
  | declare name initial =>
      cases hStatement
  | block body _ =>
      apply keeps_inNewScope
      exact kept_outerNames.execAll allowance body
  | ifThen condition thenBranch ih =>
      apply hOrder.bind (keeps_names_evaluate condition)
      intro value
      split
      · exact ih hCanonical.2.1 hCanonical.2.2
      · exact hOrder.pure ()
  | ifElse condition thenBranch elseBranch thenIH elseIH =>
      rcases hCanonical with
        ⟨-, ⟨hThen, hPlain, -⟩, hElse, hElsePlain⟩
      apply hOrder.bind (keeps_names_evaluate condition)
      intro value
      split
      · exact thenIH hThen hPlain
      · exact elseIH hElse hElsePlain
  | whileDo condition body ih =>
      have hCondition :=
        hOrder.map (keeps_names_evaluate condition)
          Value.truthy
      exact
        hOrder.repeatWhile hCondition
          (ih hCanonical.2.1 hCanonical.2.2) allowance
  | skipped =>
      cases hCanonical

end Stmt

end OcScript

------------------------------------------------------------
-- Global Names
------------------------------------------------------------

namespace OcScript

open Scopes (SameNames)

namespace Machine

variable {W : Type}

/- No scope is open but the global one. -/
def IsOutermost
    (machine : Machine W) :
    Prop :=
  ∃ globals, machine.scopes = [globals]

/- The names bound in the global frame. -/
def globalNames
    (machine : Machine W) :
    Set String :=
  {name | name ∈ machine.scopes.globals}

@[simp] theorem mem_globalNames
    {machine : Machine W}
    {name : String} :
    name ∈ machine.globalNames ↔
      name ∈ machine.scopes.globals :=
  Iff.rfl

/- The machine is outermost and binds these names. -/
structure Binds
    (machine : Machine W)
    (names : Set String) :
    Prop where
  isOutermost : machine.IsOutermost
  names_eq : machine.globalNames = names

theorem IsOutermost.binds
    {machine : Machine W}
    (hOutermost : machine.IsOutermost) :
    machine.Binds machine.globalNames :=
  ⟨hOutermost, rfl⟩

/- What a machine binds is told by its scopes. -/
theorem Binds.of_scopes_eq
    {machine other : Machine W}
    {names : Set String}
    (hBinds : machine.Binds names)
    (hScopes : other.scopes = machine.scopes) :
    other.Binds names := by
  rcases machine with ⟨scopes, sink⟩
  rcases other with ⟨scopes, sinkAfter⟩
  cases hScopes
  exact ⟨hBinds.isOutermost, hBinds.names_eq⟩

/- Where all names stay, so do the global ones. -/
theorem Binds.of_namesStay
    {before after : Machine W}
    {names : Set String}
    (hBinds : before.Binds names)
    (hStay : Execution.NamesStay before after) :
    after.Binds names := by
  rcases hBinds with ⟨⟨globals, hScopes⟩, rfl⟩
  rcases before with ⟨scopes, sink⟩
  rcases after with ⟨scopesAfter, sinkAfter⟩
  cases hScopes
  cases hStay with
  | cons hFrame hOuter =>
      cases hOuter
      refine ⟨⟨_, rfl⟩, ?_⟩
      ext name
      exact hFrame name

/- A declaration adds one global name. -/
theorem Binds.declare
    {machine : Machine W}
    {names : Set String}
    (hBinds : machine.Binds names)
    (name : String)
    (value : Value) :
    Binds
      { machine with
        scopes := machine.scopes.declare name value }
      (names ∪ {name}) := by
  rcases hBinds with ⟨⟨globals, hScopes⟩, rfl⟩
  rcases machine with ⟨scopes, sink⟩
  cases hScopes
  refine ⟨⟨globals.insert name value, rfl⟩, ?_⟩
  ext other
  simp only [mem_globalNames, Scopes.globals,
    Scopes.declare, List.getLastD_cons, List.getLastD_nil,
    Std.ExtTreeMap.mem_insert, Set.mem_union,
    Set.mem_singleton_iff, Std.LawfulEqCmp.compare_eq_iff_eq]
  rw [or_comm, eq_comm]

end Machine

namespace Stmt

open Execution

/- The names that the statements of a list declare. -/
def declaredNames
    (body : List Stmt) :
    Set String :=
  {name |
    ∃ token initial,
      .declare token initial ∈ body ∧ token.lexeme = name}

@[simp] theorem mem_declaredNames
    {body : List Stmt}
    {name : String} :
    name ∈ declaredNames body ↔
      ∃ token initial,
        .declare token initial ∈ body ∧
          token.lexeme = name :=
  Iff.rfl

@[simp] theorem declaredNames_nil :
    declaredNames [] = ∅ := by
  ext name
  simp

theorem declaredNames_cons
    (s : Stmt)
    (rest : List Stmt) :
    declaredNames (s :: rest) =
      declaredNames [s] ∪ declaredNames rest := by
  ext name
  simp only [mem_declaredNames, List.mem_cons,
    List.not_mem_nil, or_false, Set.mem_union]
  grind

theorem declaredNames_declare
    (name : Token)
    (initial : Option Expr) :
    declaredNames [.declare name initial] =
      {name.lexeme} := by
  ext other
  simp [eq_comm]

theorem declaredNames_of_not_declaration
    {s : Stmt}
    (hStatement : s.isDeclaration = false) :
    declaredNames [s] = ∅ := by
  ext name
  cases s with
  | declare name initial =>
      cases hStatement
  | _ =>
      simp

variable {W : Type}
variable [Writer W]
variable {allowance : Nat}
variable {machine after : Machine W}
variable {names : Set String}

/- A statement that reaches its end adds what it declares. -/
theorem binds_of_exec_ok
    {s : Stmt}
    (hCanonical : s.Canonical)
    (hBinds : machine.Binds names)
    (hOk : s.exec allowance machine = .ok () after) :
    after.Binds (names ∪ declaredNames [s]) := by
  cases hDeclaration : s.isDeclaration with
  | false =>
      have hStay :=
        keeps_names allowance hCanonical hDeclaration machine
      rw [stateAfter, hOk] at hStay
      rw [declaredNames_of_not_declaration hDeclaration,
        Set.union_empty]
      exact hBinds.of_namesStay hStay
  | true =>
      cases s with
      | declare name initial =>
          rw [declaredNames_declare]
          cases initial with
          | none =>
              cases hOk
              exact hBinds.declare name.lexeme .null
          | some initial =>
              have hStay :=
                keeps_names_evaluate initial machine
              simp only [exec, bind, EStateM.bind] at hOk
              rw [stateAfter] at hStay
              cases hResult : evaluate initial machine with
              | ok value between =>
                  rw [hResult] at hOk hStay
                  cases hOk
                  exact
                    (hBinds.of_namesStay hStay).declare
                      name.lexeme value
              | error stop between =>
                  rw [hResult] at hOk
                  cases hOk
      | _ =>
          cases hDeclaration

/- A statement that stops adds nothing. -/
theorem binds_of_exec_error
    {s : Stmt}
    (hCanonical : s.Canonical)
    (hBinds : machine.Binds names)
    {stop : Stop}
    (hError : s.exec allowance machine = .error stop after) :
    after.Binds names := by
  cases hDeclaration : s.isDeclaration with
  | false =>
      have hStay :=
        keeps_names allowance hCanonical hDeclaration machine
      rw [stateAfter, hError] at hStay
      exact hBinds.of_namesStay hStay
  | true =>
      cases s with
      | declare name initial =>
          cases initial with
          | none =>
              cases hError
          | some initial =>
              -- Only its value can stop a declaration.
              have hStay :=
                keeps_names_evaluate initial machine
              simp only [exec, bind, EStateM.bind] at hError
              rw [stateAfter] at hStay
              cases hResult : evaluate initial machine with
              | ok value between =>
                  rw [hResult] at hError
                  cases hError
              | error early between =>
                  rw [hResult] at hError hStay
                  cases hError
                  exact hBinds.of_namesStay hStay
      | _ =>
          cases hDeclaration

/- Statements that reach their end add what they declare. -/
theorem binds_of_execAll_ok
    {body : List Stmt}
    (hCanonical : CanonicalAll body)
    (hBinds : machine.Binds names)
    (hOk : execAll allowance body machine = .ok () after) :
    after.Binds (names ∪ declaredNames body) := by
  induction body generalizing machine names with
  | nil =>
      cases hOk
      rw [declaredNames_nil, Set.union_empty]
      exact hBinds
  | cons s rest ih =>
      simp only [execAll, bind, EStateM.bind] at hOk
      cases hResult : s.exec allowance machine with
      | ok _ between =>
          rw [hResult] at hOk
          have hFirst :=
            binds_of_exec_ok hCanonical.1 hBinds hResult
          rw [declaredNames_cons, ← Set.union_assoc]
          exact ih hCanonical.2 hFirst hOk
      | error stop between =>
          rw [hResult] at hOk
          cases hOk

/-
  The statements of `front` reach their end, and the one
  after them stops.
-/
def StopsAfter
    (allowance : Nat)
    (body : List Stmt)
    (machine : Machine W)
    (stop : Stop)
    (after : Machine W)
    (front : List Stmt) :
    Prop :=
  ∃ s back between,
    body = front ++ s :: back ∧
      execAll allowance front machine = .ok () between ∧
      s.exec allowance between = .error stop after

/- Statements that stop do so in one of them. -/
theorem stopsAfter_of_execAll_error
    {body : List Stmt}
    {stop : Stop}
    (hError :
      execAll allowance body machine = .error stop after) :
    ∃ front,
      StopsAfter allowance body machine stop after front := by
  induction body generalizing machine with
  | nil =>
      cases hError
  | cons s rest ih =>
      simp only [execAll, bind, EStateM.bind] at hError
      cases hResult : s.exec allowance machine with
      | ok _ between =>
          rw [hResult] at hError
          rcases ih hError with
            ⟨front, failing, back, middle, rfl, hFront,
              hStop⟩
          refine
            ⟨s :: front, failing, back, middle, rfl, ?_,
              hStop⟩
          simp only [execAll, bind, EStateM.bind, hResult]
          exact hFront
      | error early between =>
          rw [hResult] at hError
          cases hError
          exact ⟨[], s, rest, machine, rfl, rfl, hResult⟩

theorem StopsAfter.declaredNames_subset
    {body front : List Stmt}
    {stop : Stop}
    (hStops :
      StopsAfter allowance body machine stop after front) :
    declaredNames front ⊆ declaredNames body := by
  rcases hStops with ⟨s, back, _, rfl, -, -⟩
  rintro name ⟨token, initial, hMem, hName⟩
  exact
    ⟨token, initial, List.mem_append_left _ hMem, hName⟩

/- Then what was declared before is what was added. -/
theorem StopsAfter.binds
    {body front : List Stmt}
    {stop : Stop}
    (hStops :
      StopsAfter allowance body machine stop after front)
    (hCanonical : CanonicalAll body)
    (hBinds : machine.Binds names) :
    after.Binds (names ∪ declaredNames front) := by
  rcases hStops with
    ⟨s, back, between, rfl, hFront, hStop⟩
  rw [canonicalAll_iff] at hCanonical
  have hEarly : CanonicalAll front := by
    rw [canonicalAll_iff]
    intro early hMem
    exact hCanonical early (List.mem_append_left _ hMem)
  have hLast : s.Canonical :=
    hCanonical s
      (List.mem_append_right _ (List.mem_cons_self ..))
  exact
    binds_of_exec_error hLast
      (binds_of_execAll_ok hEarly hBinds hFront) hStop

end Stmt

end OcScript
