import Mathlib.Logic.Relation
import OcScript.Token

/-
  This file says what the scopes of a tree see, from the
  history of the operations made on the tree.

  A name is found in the nearest scope, going outward, in
  which it was declared, and its value is the last one
  written there.  An assignment writes to the scope that is
  nearest when it is made, so a later declaration in between
  does not move it.

  Key definitions include:
    * `OcScript.ScopeOp`
    * `OcScript.History`
    * `OcScript.History.Enclosed`
    * `OcScript.History.Nearest`
    * `OcScript.History.WritesTo`
    * `OcScript.History.LatestWrite`

  Key theorems include:
    * `OcScript.History.exists_nearest_iff`
    * `OcScript.History.exists_latestWrite_iff`
-/

------------------------------------------------------------
-- Histories
------------------------------------------------------------

namespace OcScript

/- An operation on a tree of scopes. -/
inductive ScopeOp where
| child (scope : Nat)
| declare (scope : Nat) (name : String) (value : Value)
| read (scope : Nat) (name : Token)
| assign (scope : Nat) (name : Token) (value : Value)
deriving DecidableEq, Repr

namespace ScopeOp

/- The scope an operation is made in. -/
def scope : ScopeOp → Nat
| .child scope => scope
| .declare scope _ _ => scope
| .read scope _ => scope
| .assign scope _ _ => scope

/- The operation adds a scope. -/
def isChild : ScopeOp → Bool
| .child _ => true
| _ => false

end ScopeOp

/- The operations made on a tree, the last one first. -/
abbrev History :=
  List ScopeOp

namespace History

/- The number of scopes: the root and one for each child. -/
def size : History → Nat
| [] => 1
| .child _ :: earlier => size earlier + 1
| _ :: earlier => size earlier

/- Every operation was made in a scope that existed. -/
def Made : History → Prop
| [] => True
| op :: earlier => op.scope < size earlier ∧ Made earlier

instance decidableMade :
    (history : History) → Decidable history.Made
| [] => .isTrue trivial
| _ :: earlier =>
    have := decidableMade earlier
    inferInstanceAs (Decidable (_ ∧ _))

/-
  The first scope was made as a child of the second.  A new
  scope is known by the number of scopes before it.
-/
inductive Enclosed : History → Nat → Nat → Prop where
| made
    {earlier : History}
    {outer : Nat} :
    Enclosed (.child outer :: earlier) (size earlier) outer
| before
    {op : ScopeOp}
    {earlier : History}
    {inner outer : Nat}
    (hEnclosed : Enclosed earlier inner outer) :
    Enclosed (op :: earlier) inner outer

/- The second scope is the first or an ancestor of it. -/
abbrev Outward
    (history : History) :
    Nat → Nat → Prop :=
  Relation.ReflTransGen history.Enclosed

/- A name was declared in a scope. -/
def Declared
    (history : History)
    (scope : Nat)
    (name : String) :
    Prop :=
  ∃ value, ScopeOp.declare scope name value ∈ history

/-
  Going outward from the first scope, the second is the
  first one in which the name was declared.
-/
inductive Nearest
    (history : History)
    (name : String) :
    Nat → Nat → Prop where
| here
    {scope : Nat}
    (hDeclared : history.Declared scope name) :
    Nearest history name scope scope
| outer
    {scope outer found : Nat}
    (hUndeclared : ¬ history.Declared scope name)
    (hEnclosed : history.Enclosed scope outer)
    (hNearest : Nearest history name outer found) :
    Nearest history name scope found

/-
  An operation that is made after a history writes a value
  to a name in a scope.  An assignment writes to the scope
  that is nearest at that moment.
-/
inductive WritesTo
    (earlier : History) :
    ScopeOp → Nat → String → Value → Prop where
| declare
    {scope : Nat}
    {name : String}
    {value : Value} :
    WritesTo earlier (.declare scope name value) scope name
      value
| assign
    {scope found : Nat}
    {name : Token}
    {value : Value}
    (hNearest : earlier.Nearest name.lexeme scope found) :
    WritesTo earlier (.assign scope name value) found
      name.lexeme value

/- The last value written to a name in a scope. -/
inductive LatestWrite :
    History → Nat → String → Value → Prop where
| last
    {op : ScopeOp}
    {earlier : History}
    {scope : Nat}
    {name : String}
    {value : Value}
    (hWrites : WritesTo earlier op scope name value) :
    LatestWrite (op :: earlier) scope name value
| before
    {op : ScopeOp}
    {earlier : History}
    {scope : Nat}
    {name : String}
    {value : Value}
    (hElsewhere :
      ∀ other, ¬ WritesTo earlier op scope name other)
    (hLatest : LatestWrite earlier scope name value) :
    LatestWrite (op :: earlier) scope name value

end History

end OcScript

------------------------------------------------------------
-- What Histories Tell
------------------------------------------------------------

namespace OcScript

namespace History

variable {history earlier : History}
variable {name : String}

theorem size_le_cons
    (op : ScopeOp)
    (earlier : History) :
    size earlier ≤ size (op :: earlier) := by
  cases op with
  | child scope =>
      exact Nat.le_succ _
  | _ =>
      exact Nat.le_refl _

/- Only a new child adds a scope. -/
theorem size_cons_of_not_isChild
    {op : ScopeOp}
    (hOld : op.isChild = false)
    (earlier : History) :
    size (op :: earlier) = size earlier := by
  cases op with
  | child scope =>
      cases hOld
  | _ =>
      rfl

theorem Enclosed.of_not_isChild
    {op : ScopeOp}
    {inner outer : Nat}
    (hEnclosed : Enclosed (op :: earlier) inner outer)
    (hOld : op.isChild = false) :
    earlier.Enclosed inner outer := by
  cases hEnclosed with
  | made =>
      cases hOld
  | before hEnclosed =>
      exact hEnclosed

/- A child comes after the scope that encloses it. -/
theorem Enclosed.lt
    {inner outer : Nat}
    (hEnclosed : history.Enclosed inner outer)
    (hMade : history.Made) :
    outer < inner ∧ inner < history.size := by
  induction hEnclosed with
  | made =>
      exact ⟨hMade.1, Nat.lt_succ_self _⟩
  | before hEnclosed ih =>
      rcases ih hMade.2 with ⟨hOuter, hInner⟩
      exact
        ⟨hOuter,
          Nat.lt_of_lt_of_le hInner (size_le_cons _ _)⟩

/- Every scope but the root was made as a child. -/
theorem eq_zero_or_enclosed
    {scope : Nat}
    (hScope : scope < history.size) :
    scope = 0 ∨ ∃ outer, history.Enclosed scope outer := by
  induction history with
  | nil =>
      exact .inl (Nat.lt_one_iff.mp hScope)
  | cons op earlier ih =>
      have hEarlier :
          scope < size earlier →
            scope = 0 ∨
              ∃ outer,
                Enclosed (op :: earlier) scope outer := by
        intro hBefore
        rcases ih hBefore with hRoot | ⟨outer, hEnclosed⟩
        · exact .inl hRoot
        · exact .inr ⟨outer, .before hEnclosed⟩
      cases op with
      | child outer =>
          rcases Nat.lt_succ_iff_lt_or_eq.mp hScope with
            hBefore | rfl
          · exact hEarlier hBefore
          · exact .inr ⟨outer, .made⟩
      | _ =>
          exact hEarlier hScope

/- A name has a nearest scope if it was declared outward. -/
theorem exists_nearest_iff
    {scope : Nat} :
    (∃ found, history.Nearest name scope found) ↔
      ∃ outer,
        history.Outward scope outer ∧
          history.Declared outer name := by
  refine ⟨?_, ?_⟩
  · rintro ⟨found, hNearest⟩
    induction hNearest with
    | here hDeclared =>
        exact ⟨_, .refl, hDeclared⟩
    | outer hUndeclared hEnclosed hNearest ih =>
        rcases ih with ⟨outer, hOutward, hDeclared⟩
        exact ⟨outer, .head hEnclosed hOutward, hDeclared⟩
  · rintro ⟨outer, hOutward, hDeclared⟩
    induction hOutward using
        Relation.ReflTransGen.head_induction_on with
    | refl =>
        exact ⟨outer, .here hDeclared⟩
    | @head scope next hEnclosed hOutward ih =>
        by_cases hHere : history.Declared scope name
        · exact ⟨scope, .here hHere⟩
        · rcases ih with ⟨found, hNearest⟩
          exact ⟨found, .outer hHere hEnclosed hNearest⟩

/- The name was declared in its nearest scope. -/
theorem Nearest.declared
    {scope found : Nat}
    (hNearest : history.Nearest name scope found) :
    history.Declared found name := by
  induction hNearest with
  | here hDeclared =>
      exact hDeclared
  | outer hUndeclared hEnclosed hNearest ih =>
      exact ih

theorem Declared.before
    {scope : Nat}
    (hDeclared : earlier.Declared scope name)
    (op : ScopeOp) :
    Declared (op :: earlier) scope name := by
  rcases hDeclared with ⟨value, hMem⟩
  exact ⟨value, List.mem_cons_of_mem op hMem⟩

/- Names were declared in scopes that existed. -/
theorem Declared.lt
    {scope : Nat}
    (hDeclared : history.Declared scope name)
    (hMade : history.Made) :
    scope < history.size := by
  induction history with
  | nil =>
      rcases hDeclared with ⟨value, hMem⟩
      cases hMem
  | cons op earlier ih =>
      rcases hDeclared with ⟨value, hMem⟩
      rcases List.mem_cons.mp hMem with rfl | hMem
      · exact hMade.1
      · have hBefore := ih ⟨value, hMem⟩ hMade.2
        exact Nat.lt_of_lt_of_le hBefore (size_le_cons _ _)

theorem latestWrite_cons_iff
    {op : ScopeOp}
    {scope : Nat}
    {value : Value} :
    LatestWrite (op :: earlier) scope name value ↔
      WritesTo earlier op scope name value ∨
        (∀ other, ¬ WritesTo earlier op scope name other) ∧
          LatestWrite earlier scope name value := by
  refine ⟨?_, ?_⟩
  · intro hLatest
    cases hLatest with
    | last hWrites =>
        exact .inl hWrites
    | before hElsewhere hLatest =>
        exact .inr ⟨hElsewhere, hLatest⟩
  · rintro (hWrites | ⟨hElsewhere, hLatest⟩)
    · exact .last hWrites
    · exact .before hElsewhere hLatest

/-
  A name was written in a scope just if it was declared
  there, since assignments write where it was.
-/
theorem exists_latestWrite_iff
    {scope : Nat} :
    (∃ value, history.LatestWrite scope name value) ↔
      history.Declared scope name := by
  refine ⟨?_, ?_⟩
  · rintro ⟨value, hLatest⟩
    induction hLatest with
    | last hWrites =>
        cases hWrites with
        | declare =>
            exact ⟨_, List.mem_cons_self ..⟩
        | assign hNearest =>
            exact hNearest.declared.before _
    | before hElsewhere hLatest ih =>
        exact ih.before _
  · rintro ⟨value, hMem⟩
    induction history with
    | nil =>
        cases hMem
    | cons op earlier ih =>
        by_cases hHere :
            ∃ other, WritesTo earlier op scope name other
        · rcases hHere with ⟨other, hWrites⟩
          exact ⟨other, .last hWrites⟩
        · rw [not_exists] at hHere
          rcases List.mem_cons.mp hMem with rfl | hMem
          · exact absurd .declare (hHere value)
          · rcases ih hMem with ⟨other, hLatest⟩
            exact ⟨other, .before hHere hLatest⟩

end History

end OcScript
