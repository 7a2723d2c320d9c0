import OcScript.RuntimeError
import Std.Data.ExtTreeMap

/-
  This file defines the scopes in which names are bound.

  Scopes are a chain of frames, the innermost first and the
  global one last.  A name is declared in the innermost
  frame, and is read and assigned in the first frame that
  binds it.

  Key definitions include:
    * `OcScript.Frame`
    * `OcScript.Scopes`
    * `OcScript.Scopes.get?`
    * `OcScript.Scopes.declare`
    * `OcScript.Scopes.assign?`
    * `OcScript.Scopes.read`
    * `OcScript.Scopes.assign`
    * `OcScript.Scopes.enter`
    * `OcScript.Scopes.leave`

  Key theorems include:
    * `OcScript.Scopes.get?_declare`
    * `OcScript.Scopes.isSome_assign?`
    * `OcScript.Scopes.get?_of_assign?`
-/

------------------------------------------------------------
-- Frames and Scopes
------------------------------------------------------------

namespace OcScript

/- A frame binds names to values. -/
abbrev Frame :=
  Std.ExtTreeMap String Value

/- A chain of frames, from the innermost to the global one. -/
abbrev Scopes :=
  List Frame

namespace Scopes

/- The scopes in which a program starts. -/
def fresh : Scopes :=
  [∅]

/- The value of a name in the first frame that binds it. -/
def get?
    (name : String) :
    Scopes → Option Value
| [] => none
| frame :: outer =>
    match frame[name]? with
    | some value => some value
    | none => get? name outer

/- Bind a name in the innermost frame. -/
def declare
    (name : String)
    (value : Value) :
    Scopes → Scopes
| [] => [(∅ : Frame).insert name value]
| frame :: outer => frame.insert name value :: outer

/-
  Change the value of a name in the first frame that binds
  it.  A name that is bound nowhere cannot be assigned.
-/
def assign?
    (name : String)
    (value : Value) :
    Scopes → Option Scopes
| [] => none
| frame :: outer =>
    if name ∈ frame then
      some (frame.insert name value :: outer)
    else
      (assign? name value outer).map (frame :: ·)

/- The value of a name, which must be bound. -/
def read
    (name : Token)
    (scopes : Scopes) :
    Except RuntimeError Value :=
  match scopes.get? name.lexeme with
  | some value => .ok value
  | none => .error ⟨name, .undefinedVariable⟩

/- Assign a value to a name, which must be bound. -/
def assign
    (name : Token)
    (value : Value)
    (scopes : Scopes) :
    Except RuntimeError Scopes :=
  match scopes.assign? name.lexeme value with
  | some assigned => .ok assigned
  | none => .error ⟨name, .undefinedVariable⟩

/- Enter a scope of its own. -/
def enter
    (scopes : Scopes) :
    Scopes :=
  ∅ :: scopes

/- Leave the innermost scope. -/
def leave
    (scopes : Scopes) :
    Scopes :=
  scopes.tail

/- The outermost frame. -/
def globals
    (scopes : Scopes) :
    Frame :=
  scopes.getLastD ∅

end Scopes

end OcScript

------------------------------------------------------------
-- Reading After Writing
------------------------------------------------------------

namespace OcScript

namespace Scopes

/- A new scope hides nothing. -/
@[simp] theorem get?_enter
    (scopes : Scopes)
    (name : String) :
    scopes.enter.get? name = scopes.get? name := by
  simp [enter, get?]

/- Leaving a new scope gives back the scopes before it. -/
@[simp] theorem leave_enter
    (scopes : Scopes) :
    scopes.enter.leave = scopes :=
  rfl

/- A declared name has its new value, the others theirs. -/
theorem get?_declare
    (scopes : Scopes)
    (name : String)
    (value : Value)
    (other : String) :
    (scopes.declare name value).get? other =
      if name = other then some value
      else scopes.get? other := by
  cases scopes with
  | nil =>
      by_cases hName : name = other <;>
        simp [declare, get?, hName]
  | cons frame outer =>
      by_cases hName : name = other <;>
        simp [declare, get?, Std.ExtTreeMap.getElem?_insert,
          hName]

/- A name can be assigned just if it can be read. -/
theorem isSome_assign?
    (scopes : Scopes)
    (name : String)
    (value : Value) :
    (scopes.assign? name value).isSome =
      (scopes.get? name).isSome := by
  induction scopes with
  | nil =>
      rfl
  | cons frame outer ih =>
      by_cases hBound : name ∈ frame <;>
        simp [assign?, get?, hBound, ih]

/- An assigned name has its new value, the others theirs. -/
theorem get?_of_assign?
    {scopes assigned : Scopes}
    {name : String}
    {value : Value}
    (hAssigned :
      scopes.assign? name value = some assigned)
    (other : String) :
    assigned.get? other =
      if name = other then some value
      else scopes.get? other := by
  induction scopes generalizing assigned with
  | nil =>
      cases hAssigned
  | cons frame outer ih =>
      by_cases hBound : name ∈ frame
      · simp only [assign?, hBound, if_true,
          Option.some.injEq] at hAssigned
        subst hAssigned
        by_cases hName : name = other <;>
          simp [get?, Std.ExtTreeMap.getElem?_insert, hName]
      · simp only [assign?, hBound, if_false,
          Option.map_eq_some_iff] at hAssigned
        obtain ⟨rest, hRest, rfl⟩ := hAssigned
        by_cases hName : name = other
        · subst hName
          have hNone : frame[name]? = none :=
            Std.ExtTreeMap.getElem?_eq_none hBound
          simp [get?, hNone, ih hRest]
        · simp [get?, ih hRest, hName]

end Scopes

end OcScript
