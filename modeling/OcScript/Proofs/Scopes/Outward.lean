import Mathlib.Data.List.GetD
import Mathlib.Logic.Function.Basic
import OcScript.ScopeTree

/-
  This file walks through a tree of scopes from one of them
  outward, to read or to assign a name.

  A walk looks at one scope after the other, may change the
  tree at each of them, and keeps what it did if it fails.
  It ends as reading or assigning in the chain of frames
  does.  By then nothing has changed but the binding that is
  assigned, and nothing at all if the walk failed.

  Key definitions include:
    * `OcScript.ScopeTree.holder?`
    * `OcScript.ScopeTree.binding`
    * `OcScript.ScopeTree.Access`
    * `OcScript.ScopeTree.readFrom`
    * `OcScript.ScopeTree.assignFrom`

  Key theorems include:
    * `OcScript.ScopeTree.assign_eq`
    * `OcScript.ScopeTree.read_eq`
    * `OcScript.ScopeTree.readFrom_eq`
    * `OcScript.ScopeTree.assignFrom_eq`
    * `OcScript.ScopeTree.assign_cases`
-/

------------------------------------------------------------
-- Chains Along a Path
------------------------------------------------------------

namespace OcScript

namespace Scopes

variable {frameOf : Nat → Frame}
variable {name : String}

/- A name is read in the first frame on a path with it. -/
theorem get?_map
    (path : List Nat) :
    get? name (path.map frameOf) =
      (path.find? fun i => name ∈ frameOf i).bind
        fun i => (frameOf i)[name]? := by
  induction path with
  | nil =>
      rfl
  | cons i path ih =>
      by_cases hBound : name ∈ frameOf i
      · simp [get?, hBound]
      · simp [get?, hBound, ih]

/-
  A name is assigned in the first frame on a path with it,
  and in no other, as no scope is on the path twice.
-/
theorem assign?_map
    {path : List Nat}
    (hPath : path.Nodup)
    (value : Value) :
    assign? name value (path.map frameOf) =
      (path.find? fun i => name ∈ frameOf i).map fun found =>
        path.map
          (Function.update frameOf found
            ((frameOf found).insert name value)) := by
  have hUpdate :
      ∀ {found : Nat} {frame : Frame} {others : List Nat},
        found ∉ others →
        others.map (Function.update frameOf found frame) =
          others.map frameOf := by
    intro found frame others hAbsent
    apply List.map_congr_left
    intro i hMem
    apply Function.update_of_ne
    rintro rfl
    exact hAbsent hMem
  induction path with
  | nil =>
      rfl
  | cons i path ih =>
      rw [List.nodup_cons] at hPath
      by_cases hBound : name ∈ frameOf i
      · simp only [List.map_cons, assign?, hBound, if_true,
          decide_true, List.find?_cons_of_pos,
          Option.map_some, Function.update_self,
          hUpdate hPath.1]
      · simp only [List.map_cons, assign?, hBound, if_false,
          ih hPath.2, decide_false, Bool.false_eq_true,
          not_false_eq_true, List.find?_cons_of_neg,
          Option.map_map]
        cases hFound :
            path.find? fun i => decide (name ∈ frameOf i) with
        | none =>
            rfl
        | some found =>
            have hOther : i ≠ found := by
              rintro rfl
              exact hPath.1 (List.mem_of_find?_eq_some hFound)
            simp only [Option.map_some, Function.comp_apply,
              Function.update_of_ne hOther]

end Scopes

namespace ScopeTree

variable {tree : ScopeTree}

/- The frame of a scope. -/
def frame
    (tree : ScopeTree)
    (scope : Nat) :
    Frame :=
  tree.frames.getD scope ∅

theorem chain_eq
    (tree : ScopeTree)
    (scope : Nat) :
    tree.chain scope = (tree.path scope).map tree.frame :=
  rfl

/- The first scope, going outward, that binds a name. -/
def holder?
    (tree : ScopeTree)
    (scope : Nat)
    (name : String) :
    Option Nat :=
  (tree.path scope).find? fun i => name ∈ tree.frame i

/- The tree with one name of one scope bound to a value. -/
def binding
    (tree : ScopeTree)
    (scope : Nat)
    (name : String)
    (value : Value) :
    ScopeTree :=
  { tree with
    frames :=
      tree.frames.set scope
        ((tree.frame scope).insert name value) }

/- One binding has a new value, all others have theirs. -/
theorem getElem?_frame_binding
    {found : Nat}
    (hFound : found < tree.size)
    (name : String)
    (value : Value)
    (scope : Nat)
    (other : String) :
    ((tree.binding found name value).frame scope)[other]? =
      if scope = found ∧ other = name then
        some value
      else
        (tree.frame scope)[other]? := by
  have hLength : found < tree.frames.length := hFound
  unfold binding frame
  rw [List.getD_eq_getElem?_getD, List.getElem?_set]
  by_cases hSame : scope = found
  · subst hSame
    by_cases hName : other = name
    · simp [hName, hLength]
    · simp [Std.ExtTreeMap.getElem?_insert, hLength, hName,
        Ne.symm hName]
  · simp [hSame, Ne.symm hSame]

/- A new value for a bound name adds no name. -/
theorem mem_frame_binding_iff
    {found : Nat}
    (hFound : found < tree.size)
    {name : String}
    (hBound : name ∈ tree.frame found)
    (value : Value)
    (scope : Nat)
    (other : String) :
    other ∈ (tree.binding found name value).frame scope ↔
      other ∈ tree.frame scope := by
  rw [Std.ExtTreeMap.mem_iff_isSome_getElem?,
    getElem?_frame_binding hFound]
  by_cases hHere : scope = found ∧ other = name
  · rcases hHere with ⟨rfl, rfl⟩
    simp [hBound]
  · rw [if_neg hHere,
      ← Std.ExtTreeMap.mem_iff_isSome_getElem?]

/-
  Putting frames back along a path changes one frame, if all
  others on the path are put back as they were.
-/
theorem foldl_set_zip
    (found : Nat)
    {frames : List Frame}
    {path : List Nat}
    {frameOf : Nat → Frame}
    (hOthers :
      ∀ i ∈ path, i ≠ found →
        frames.set i (frameOf i) = frames) :
    (path.zip (path.map frameOf)).foldl
        (fun frames (i, frame) => frames.set i frame)
        frames =
      if found ∈ path then
        frames.set found (frameOf found)
      else
        frames := by
  induction path generalizing frames with
  | nil =>
      rfl
  | cons i path ih =>
      rw [List.forall_mem_cons] at hOthers
      simp only [List.map_cons, List.zip_cons_cons,
        List.foldl_cons, List.mem_cons]
      by_cases hFirst : i = found
      · subst hFirst
        rw [ih]
        · simp
        · intro j hMem hOther
          rw [List.set_comm _ _ hOther.symm,
            hOthers.2 j hMem hOther]
      · rw [hOthers.1 hFirst, ih hOthers.2]
        simp [Ne.symm hFirst]

theorem putChain_update
    {scope found : Nat}
    (hFound : found ∈ tree.path scope)
    (name : String)
    (value : Value) :
    tree.putChain scope
        ((tree.path scope).map
          (Function.update tree.frame found
            ((tree.frame found).insert name value))) =
      tree.binding found name value := by
  unfold putChain binding
  rw [foldl_set_zip found, if_pos hFound,
    Function.update_self]
  intro i _ hOther
  rw [Function.update_of_ne hOther]
  apply List.ext_getElem?
  intro j
  rw [List.getElem?_set]
  by_cases hSame : i = j
  · subst hSame
    by_cases hLength : i < tree.frames.length
    · simp [hLength, frame]
    · simp [hLength]
  · simp [hSame]

/- Declaring a name binds it in the scope itself. -/
theorem declare_eq
    {scope : Nat}
    {outer : List Nat}
    (hPath : tree.path scope = scope :: outer)
    (hOuter : scope ∉ outer)
    (name : String)
    (value : Value) :
    tree.declare scope name value =
      tree.binding scope name value := by
  have hMem : scope ∈ tree.path scope := by
    rw [hPath]
    exact List.mem_cons_self ..
  have hChain :
      (tree.chain scope).declare name value =
        (tree.path scope).map
          (Function.update tree.frame scope
            ((tree.frame scope).insert name value)) := by
    have hSame :
        outer.map
            (Function.update tree.frame scope
              ((tree.frame scope).insert name value)) =
          outer.map tree.frame := by
      apply List.map_congr_left
      intro i hOther
      apply Function.update_of_ne
      rintro rfl
      exact hOuter hOther
    rw [chain_eq, hPath, List.map_cons, List.map_cons, hSame,
      Function.update_self]
    rfl
  rw [declare, hChain, putChain_update hMem]

/- Assigning a name binds it where it is found. -/
theorem assign_eq
    {scope : Nat}
    (hPath : (tree.path scope).Nodup)
    (name : Token)
    (value : Value) :
    tree.assign scope name value =
      match tree.holder? scope name.lexeme with
      | some found =>
          .ok (tree.binding found name.lexeme value)
      | none => .error ⟨name, .undefinedVariable⟩ := by
  have hAssigned :
      (tree.chain scope).assign? name.lexeme value =
        (tree.holder? scope name.lexeme).map fun found =>
          (tree.path scope).map
            (Function.update tree.frame found
              ((tree.frame found).insert name.lexeme
                value)) := by
    rw [chain_eq, Scopes.assign?_map hPath]
    rfl
  rw [assign, Scopes.assign, hAssigned]
  cases hFound : tree.holder? scope name.lexeme with
  | none =>
      rfl
  | some found =>
      have hMem := List.mem_of_find?_eq_some hFound
      exact congrArg Except.ok (putChain_update hMem _ _)

/- Reading a name gives its value where it is found. -/
theorem read_eq
    (tree : ScopeTree)
    (scope : Nat)
    (name : Token) :
    tree.read scope name =
      match (tree.holder? scope name.lexeme).bind
          fun found => (tree.frame found)[name.lexeme]? with
      | some value => .ok value
      | none => .error ⟨name, .undefinedVariable⟩ := by
  rw [read, Scopes.read, chain_eq, Scopes.get?_map]
  rfl

end ScopeTree

end OcScript

------------------------------------------------------------
-- Walks
------------------------------------------------------------

namespace OcScript

namespace ScopeTree

/-
  A computation on trees that ends or fails, and leaves the
  tree as it is then.
-/
abbrev Access (α : Type) :=
  EStateM RuntimeError ScopeTree α

/- Read a name in the first scope on a path that binds it. -/
def readAlong
    (name : Token) :
    List Nat → Access Value
| [] => throw ⟨name, .undefinedVariable⟩
| scope :: outer => do
    match ((← get).frame scope)[name.lexeme]? with
    | some value => pure value
    | none => readAlong name outer

/- Assign it there. -/
def assignAlong
    (name : Token)
    (value : Value) :
    List Nat → Access Unit
| [] => throw ⟨name, .undefinedVariable⟩
| scope :: outer => do
    if name.lexeme ∈ (← get).frame scope then
      modify fun tree => tree.binding scope name.lexeme value
    else
      assignAlong name value outer

/- Read a name, going outward from a scope. -/
def readFrom
    (scope : Nat)
    (name : Token) :
    Access Value := do
  readAlong name ((← get).path scope)

/- Assign a value to a name, going outward from a scope. -/
def assignFrom
    (scope : Nat)
    (name : Token)
    (value : Value) :
    Access Unit := do
  assignAlong name value ((← get).path scope)

variable {tree : ScopeTree}
variable {name : Token}
variable {value : Value}

/- A walk reads what the frames on its path say. -/
theorem readAlong_eq
    (path : List Nat) :
    readAlong name path tree =
      match Scopes.read name (path.map tree.frame) with
      | .ok value => .ok value tree
      | .error error => .error error tree := by
  induction path with
  | nil =>
      rfl
  | cons i path ih =>
      have hStep :
          readAlong name (i :: path) tree =
            match (tree.frame i)[name.lexeme]? with
            | some value => .ok value tree
            | none => readAlong name path tree := by
        change
          (match (tree.frame i)[name.lexeme]? with
            | some value => (pure value : Access Value)
            | none => readAlong name path) tree = _
        cases (tree.frame i)[name.lexeme]? <;> rfl
      rw [hStep, ih]
      simp only [Scopes.read, List.map_cons, Scopes.get?]
      cases (tree.frame i)[name.lexeme]? <;> rfl

/- A walk assigns in the first scope that has the name. -/
theorem assignAlong_eq
    (path : List Nat) :
    assignAlong name value path tree =
      match path.find? fun i =>
          name.lexeme ∈ tree.frame i with
      | some found =>
          .ok () (tree.binding found name.lexeme value)
      | none => .error ⟨name, .undefinedVariable⟩ tree := by
  induction path with
  | nil =>
      rfl
  | cons i path ih =>
      have hStep :
          assignAlong name value (i :: path) tree =
            if name.lexeme ∈ tree.frame i then
              .ok () (tree.binding i name.lexeme value)
            else
              assignAlong name value path tree := by
        change
          (if name.lexeme ∈ tree.frame i then
            modify fun tree => tree.binding i name.lexeme value
          else
            assignAlong name value path) tree = _
        split <;> rfl
      rw [hStep, ih]
      by_cases hBound : name.lexeme ∈ tree.frame i <;>
        simp [hBound]

/-
  Reading changes nothing, and ends as reading in the chain
  of frames does.
-/
theorem readFrom_eq
    (scope : Nat) :
    readFrom scope name tree =
      match tree.read scope name with
      | .ok value => .ok value tree
      | .error error => .error error tree :=
  readAlong_eq (tree.path scope)

theorem readFrom_eq_ok_iff
    (scope : Nat)
    (value : Value)
    (after : ScopeTree) :
    readFrom scope name tree = .ok value after ↔
      tree.read scope name = .ok value ∧ after = tree := by
  rw [readFrom_eq]
  cases tree.read scope name <;> simp [eq_comm]

theorem readFrom_eq_error_iff
    (scope : Nat)
    (error : RuntimeError)
    (after : ScopeTree) :
    readFrom scope name tree = .error error after ↔
      tree.read scope name = .error error ∧
        after = tree := by
  rw [readFrom_eq]
  cases tree.read scope name <;> simp [eq_comm]

/- Assigning binds the name where it is found. -/
theorem assignFrom_eq
    (scope : Nat) :
    assignFrom scope name value tree =
      match tree.holder? scope name.lexeme with
      | some found =>
          .ok () (tree.binding found name.lexeme value)
      | none => .error ⟨name, .undefinedVariable⟩ tree :=
  assignAlong_eq (tree.path scope)

/- A name that cannot be read is undefined. -/
theorem error_of_read
    {scope : Nat}
    {error : RuntimeError}
    (hError : tree.read scope name = .error error) :
    error = ⟨name, .undefinedVariable⟩ := by
  rw [read_eq] at hError
  split at hError
  · cases hError
  · cases hError
    rfl

/-
  An assignment binds the name where it is found, or fails
  and changes nothing, and it does the same in the chain of
  frames.
-/
theorem assign_cases
    {scope : Nat}
    (hPath : (tree.path scope).Nodup)
    (name : Token)
    (value : Value) :
    (∃ found,
      tree.holder? scope name.lexeme = some found ∧
        tree.assign scope name value =
          .ok (tree.binding found name.lexeme value) ∧
        assignFrom scope name value tree =
          .ok () (tree.binding found name.lexeme value)) ∨
      tree.holder? scope name.lexeme = none ∧
        tree.assign scope name value =
          .error ⟨name, .undefinedVariable⟩ ∧
        assignFrom scope name value tree =
          .error ⟨name, .undefinedVariable⟩ tree := by
  rw [assign_eq hPath, assignFrom_eq]
  cases tree.holder? scope name.lexeme with
  | none =>
      exact .inr ⟨rfl, rfl, rfl⟩
  | some found =>
      exact .inl ⟨found, rfl, rfl, rfl⟩

end ScopeTree

end OcScript
