import OcScript.Proofs.Scopes.History
import OcScript.Proofs.Scopes.Outward

/-
  This file proves that a tree of scopes behaves like the
  history of the operations made on it.

  Declaring and assigning both change one binding of one
  frame, which all scopes below it share.  So every
  operation keeps the tree in step with its history, and
  every tree that can be built is in step with its own.

  Key definitions include:
    * `OcScript.ScopeOp.perform`
    * `OcScript.ScopeOp.apply`
    * `OcScript.History.tree`
    * `OcScript.ScopeTree.Follows`

  Key theorems include:
    * `OcScript.ScopeTree.Follows.holder?_eq_some_iff`
    * `OcScript.ScopeTree.Follows.apply`
    * `OcScript.ScopeTree.follows_tree`
    * `OcScript.ScopeTree.scopes_follow_history`
-/

------------------------------------------------------------
-- Trees That Are Built
------------------------------------------------------------

namespace OcScript

namespace ScopeOp

/- Make an operation on a tree. -/
def perform : ScopeOp → ScopeTree.Access Unit
| .child scope => modify fun tree => tree.child scope
| .declare scope name value =>
    modify fun tree => tree.declare scope name value
| .read scope name => do
    let _ ← ScopeTree.readFrom scope name
| .assign scope name value =>
    ScopeTree.assignFrom scope name value

/- The tree after an operation, also if that has failed. -/
def apply
    (tree : ScopeTree)
    (op : ScopeOp) :
    ScopeTree :=
  match op.perform tree with
  | .ok _ after => after
  | .error _ after => after

/- Reading changes nothing, whether it ends or fails. -/
theorem apply_read
    (tree : ScopeTree)
    (scope : Nat)
    (name : Token) :
    apply tree (.read scope name) = tree := by
  simp only [apply, perform, Bind.bind, EStateM.bind,
    ScopeTree.readFrom_eq]
  cases tree.read scope name <;> rfl

end ScopeOp

namespace History

/- The tree that a history leaves. -/
def tree : History → ScopeTree
| [] => .root
| op :: earlier => op.apply (tree earlier)

end History

end OcScript

------------------------------------------------------------
-- Trees in Step With Their Histories
------------------------------------------------------------

namespace OcScript

namespace ScopeTree

/-
  The tree has the scopes of the history, each with its path
  outward, and binds the names last written in them.
-/
structure Follows
    (tree : ScopeTree)
    (history : History) :
    Prop where
  frames : tree.frames.length = history.size
  paths : tree.paths.length = history.size
  root : tree.path 0 = [0]
  enclosed :
    ∀ {inner outer},
      history.Enclosed inner outer →
      tree.path inner = inner :: tree.path outer
  values :
    ∀ {scope},
      scope < history.size →
      ∀ name value,
        (tree.frame scope)[name]? = some value ↔
          history.LatestWrite scope name value

namespace Follows

variable {tree : ScopeTree}
variable {history : History}

/- A name is bound in the scopes it was declared in. -/
theorem mem_frame_iff
    (hFollows : tree.Follows history)
    {scope : Nat}
    (hScope : scope < history.size)
    (name : String) :
    name ∈ tree.frame scope ↔
      history.Declared scope name := by
  rw [← History.exists_latestWrite_iff,
    Std.ExtTreeMap.mem_iff_isSome_getElem?,
    Option.isSome_iff_exists]
  exact exists_congr (hFollows.values hScope name)

/- A path starts at its scope and goes outward from there. -/
theorem path_eq_cons
    (hFollows : tree.Follows history)
    (hMade : history.Made)
    {scope : Nat}
    (hScope : scope < history.size) :
    ∃ outer,
      tree.path scope = scope :: outer ∧
        (tree.path scope).Pairwise (· > ·) ∧
        ∀ i ∈ tree.path scope, i < history.size := by
  induction scope using Nat.strongRecOn with
  | ind scope ih =>
    rcases History.eq_zero_or_enclosed hScope with
      rfl | ⟨next, hEnclosed⟩
    · rw [hFollows.root]
      refine ⟨[], rfl, List.pairwise_singleton _ _, ?_⟩
      intro i hMem
      rw [List.mem_singleton.mp hMem]
      exact hScope
    · have hNext := (hEnclosed.lt hMade).1
      rcases ih next hNext (Nat.lt_trans hNext hScope) with
        ⟨outer, hPath, hDown, hBounds⟩
      rw [hFollows.enclosed hEnclosed]
      refine ⟨_, rfl, ?_, ?_⟩
      · rw [List.pairwise_cons]
        refine ⟨?_, hDown⟩
        intro i hMem
        rw [hPath] at hMem hDown
        rcases List.mem_cons.mp hMem with rfl | hMem
        · exact hNext
        · have hBelow := List.rel_of_pairwise_cons hDown hMem
          exact Nat.lt_trans hBelow hNext
      · rw [List.forall_mem_cons]
        exact ⟨hScope, hBounds⟩

/- No scope is twice on its way outward. -/
theorem nodup_path
    (hFollows : tree.Follows history)
    (hMade : history.Made)
    {scope : Nat}
    (hScope : scope < history.size) :
    (tree.path scope).Nodup := by
  rcases hFollows.path_eq_cons hMade hScope with
    ⟨_, _, hDown, _⟩
  exact hDown.imp fun hGreater => Nat.ne_of_gt hGreater

/- A name that was declared in a scope is found there. -/
theorem holder?_of_declared
    (hFollows : tree.Follows history)
    (hMade : history.Made)
    {scope : Nat}
    (hScope : scope < history.size)
    {name : String}
    (hDeclared : history.Declared scope name) :
    tree.holder? scope name = some scope := by
  rcases hFollows.path_eq_cons hMade hScope with
    ⟨outer, hPath, -, -⟩
  rw [holder?, hPath]
  apply List.find?_cons_of_pos
  exact
    decide_eq_true
      ((hFollows.mem_frame_iff hScope name).mpr hDeclared)

/- A name that was not is looked for further outward. -/
theorem holder?_of_enclosed
    (hFollows : tree.Follows history)
    {scope outer : Nat}
    (hScope : scope < history.size)
    (hEnclosed : history.Enclosed scope outer)
    {name : String}
    (hUndeclared : ¬ history.Declared scope name) :
    tree.holder? scope name = tree.holder? outer name := by
  rw [holder?, hFollows.enclosed hEnclosed]
  apply List.find?_cons_of_neg
  rw [decide_eq_true_iff,
    hFollows.mem_frame_iff hScope name]
  exact hUndeclared

/- Nothing is found outside of the root. -/
theorem holder?_root
    (hFollows : tree.Follows history)
    (hScope : 0 < history.size)
    {name : String}
    (hUndeclared : ¬ history.Declared 0 name) :
    tree.holder? 0 name = none := by
  rw [holder?, hFollows.root, List.find?_cons_of_neg]
  · rfl
  · rw [decide_eq_true_iff,
      hFollows.mem_frame_iff hScope name]
    exact hUndeclared

/-
  The tree finds a name in the nearest scope in which it was
  declared.
-/
theorem holder?_eq_some_iff
    (hFollows : tree.Follows history)
    (hMade : history.Made)
    {scope : Nat}
    (hScope : scope < history.size)
    {name : String}
    {found : Nat} :
    tree.holder? scope name = some found ↔
      history.Nearest name scope found := by
  refine ⟨?_, ?_⟩
  · intro hFound
    induction scope using Nat.strongRecOn with
    | ind scope ih =>
      by_cases hHere : history.Declared scope name
      · rw [hFollows.holder?_of_declared hMade hScope hHere]
          at hFound
        cases hFound
        exact .here hHere
      · rcases History.eq_zero_or_enclosed hScope with
          rfl | ⟨outer, hEnclosed⟩
        · rw [hFollows.holder?_root hScope hHere] at hFound
          cases hFound
        · have hOuter := (hEnclosed.lt hMade).1
          rw [hFollows.holder?_of_enclosed hScope hEnclosed
            hHere] at hFound
          apply History.Nearest.outer hHere hEnclosed
          exact
            ih outer hOuter (Nat.lt_trans hOuter hScope)
              hFound
  · intro hNearest
    induction hNearest with
    | here hDeclared =>
        exact
          hFollows.holder?_of_declared hMade hScope hDeclared
    | outer hUndeclared hEnclosed hNearest ih =>
        have hOuter := (hEnclosed.lt hMade).1
        rw [hFollows.holder?_of_enclosed hScope hEnclosed
          hUndeclared]
        exact ih (Nat.lt_trans hOuter hScope)

end Follows

end ScopeTree

end OcScript

------------------------------------------------------------
-- Operations Keep Step
------------------------------------------------------------

namespace OcScript

namespace ScopeTree

open History (WritesTo)

variable {tree : ScopeTree}
variable {history : History}

/- The tree of the root follows the empty history. -/
theorem follows_root :
    root.Follows [] := by
  refine ⟨rfl, rfl, rfl, ?_, ?_⟩
  · intro inner outer hEnclosed
    cases hEnclosed
  · intro scope hScope name value
    cases Nat.lt_one_iff.mp hScope
    refine ⟨?_, ?_⟩
    · intro hValue
      simp [frame, root] at hValue
    · intro hLatest
      cases hLatest

namespace Follows

/- A new scope binds nothing and changes no other. -/
theorem child
    (hFollows : tree.Follows history)
    (hMade : history.Made)
    {scope : Nat}
    (hScope : scope < history.size) :
    (tree.child scope).Follows (.child scope :: history) := by
  have hPath :
      ∀ i, i < history.size →
        (tree.child scope).path i = tree.path i := by
    intro i hOld
    rw [← hFollows.paths] at hOld
    exact List.getD_append _ _ _ i hOld
  have hNewPath :
      (tree.child scope).path history.size =
        history.size :: tree.path scope := by
    have hSize : tree.size = history.size := hFollows.frames
    unfold path ScopeTree.child
    rw [← hFollows.paths,
      List.getD_append_right _ _ _ _ (Nat.le_refl _),
      hFollows.paths, hSize, Nat.sub_self]
    rfl
  have hNoWrite :
      ∀ i name value,
        ¬ WritesTo history (.child scope) i name value := by
    intro i name value hWrites
    cases hWrites
  refine ⟨?_, ?_, ?_, ?_, ?_⟩
  · rw [ScopeTree.child, List.length_append, hFollows.frames]
    rfl
  · rw [ScopeTree.child, List.length_append, hFollows.paths]
    rfl
  · rw [hPath 0 (Nat.zero_lt_of_lt hScope), hFollows.root]
  · intro inner outer hEnclosed
    cases hEnclosed with
    | made =>
        rw [hNewPath, hPath scope hScope]
    | before hEnclosed =>
        rcases hEnclosed.lt hMade with ⟨hOuter, hInner⟩
        rw [hPath inner hInner,
          hPath outer (Nat.lt_trans hOuter hInner),
          hFollows.enclosed hEnclosed]
  · intro i hBound name value
    rw [History.latestWrite_cons_iff]
    simp only [hNoWrite, not_false_eq_true, implies_true,
      true_and, false_or]
    rcases Nat.lt_succ_iff_lt_or_eq.mp hBound with
      hOld | rfl
    · have hFrame :
          (tree.child scope).frame i = tree.frame i := by
        rw [← hFollows.frames] at hOld
        exact List.getD_append _ _ _ i hOld
      rw [hFrame, hFollows.values hOld]
    · have hFrame :
          (tree.child scope).frame history.size = ∅ := by
        unfold frame ScopeTree.child
        rw [← hFollows.frames,
          List.getD_append_right _ _ _ _ (Nat.le_refl _),
          Nat.sub_self]
        rfl
      rw [hFrame]
      refine ⟨?_, ?_⟩
      · intro hValue
        simp at hValue
      · intro hLatest
        have hDeclared :=
          History.exists_latestWrite_iff.mp ⟨value, hLatest⟩
        exact absurd (hDeclared.lt hMade) (Nat.lt_irrefl _)

/- An operation that writes nothing changes no scope. -/
theorem unchanged
    (hFollows : tree.Follows history)
    {op : ScopeOp}
    (hOld : op.isChild = false)
    (hNoWrite :
      ∀ scope name value,
        ¬ WritesTo history op scope name value) :
    tree.Follows (op :: history) := by
  have hSize := History.size_cons_of_not_isChild hOld history
  refine ⟨?_, ?_, hFollows.root, ?_, ?_⟩
  · rw [hSize, hFollows.frames]
  · rw [hSize, hFollows.paths]
  · intro inner outer hEnclosed
    exact hFollows.enclosed (hEnclosed.of_not_isChild hOld)
  · intro scope hScope name value
    rw [hSize] at hScope
    rw [hFollows.values hScope,
      History.latestWrite_cons_iff]
    simp only [hNoWrite, not_false_eq_true, implies_true,
      true_and, false_or]

/- An operation that writes a value binds it. -/
theorem binding
    (hFollows : tree.Follows history)
    {op : ScopeOp}
    (hOld : op.isChild = false)
    {found : Nat}
    (hFound : found < history.size)
    {name : String}
    {value : Value}
    (hWrites :
      ∀ scope other written,
        WritesTo history op scope other written ↔
          scope = found ∧ other = name ∧ written = value) :
    (tree.binding found name value).Follows
      (op :: history) := by
  have hSize := History.size_cons_of_not_isChild hOld history
  refine ⟨?_, ?_, hFollows.root, ?_, ?_⟩
  · rw [hSize, ScopeTree.binding, List.length_set,
      hFollows.frames]
  · rw [hSize, ScopeTree.binding, hFollows.paths]
  · intro inner outer hEnclosed
    exact hFollows.enclosed (hEnclosed.of_not_isChild hOld)
  · intro scope hScope other written
    rw [hSize] at hScope
    have hTree : found < tree.size := by
      rw [size, hFollows.frames]
      exact hFound
    rw [getElem?_frame_binding hTree,
      History.latestWrite_cons_iff, ← hFollows.values hScope]
    simp only [hWrites]
    by_cases hHere : scope = found ∧ other = name
    · rcases hHere with ⟨rfl, rfl⟩
      simp [eq_comm]
    · have hElsewhere :
          ∀ any : Value,
            ¬ (scope = found ∧ other = name ∧
              any = value) := by
        rintro any ⟨hScope, hName, -⟩
        exact hHere ⟨hScope, hName⟩
      simp only [hHere, hElsewhere, if_false,
        not_false_eq_true, implies_true, true_and, false_or]

/- Declaring writes to the scope itself. -/
theorem declare
    (hFollows : tree.Follows history)
    (hMade : history.Made)
    {scope : Nat}
    (hScope : scope < history.size)
    (name : String)
    (value : Value) :
    (tree.declare scope name value).Follows
      (.declare scope name value :: history) := by
  rcases hFollows.path_eq_cons hMade hScope with
    ⟨outer, hPath, hDown, -⟩
  rw [hPath] at hDown
  have hOuter : scope ∉ outer := by
    intro hMem
    exact
      Nat.lt_irrefl _ (List.rel_of_pairwise_cons hDown hMem)
  rw [declare_eq hPath hOuter]
  apply hFollows.binding rfl hScope
  intro other text written
  refine ⟨?_, ?_⟩
  · intro hWrites
    cases hWrites with
    | declare =>
        exact ⟨rfl, rfl, rfl⟩
  · rintro ⟨rfl, rfl, rfl⟩
    exact .declare

/- Assigning writes to the nearest scope, if there is one. -/
theorem assign
    (hFollows : tree.Follows history)
    (hMade : history.Made)
    {scope : Nat}
    (hScope : scope < history.size)
    (name : Token)
    (value : Value) :
    (ScopeOp.apply tree (.assign scope name value)).Follows
      (.assign scope name value :: history) := by
  have hNearest :
      ∀ found,
        tree.holder? scope name.lexeme = some found ↔
          history.Nearest name.lexeme scope found := by
    intro found
    exact hFollows.holder?_eq_some_iff hMade hScope
  rw [ScopeOp.apply, ScopeOp.perform, assignFrom_eq]
  cases hFound : tree.holder? scope name.lexeme with
  | none =>
      apply hFollows.unchanged rfl
      intro other text written hWrites
      cases hWrites with
      | assign hWritten =>
          rw [← hNearest, hFound] at hWritten
          cases hWritten
  | some found =>
      have hHolds := (hNearest found).mp hFound
      apply hFollows.binding rfl (hHolds.declared.lt hMade)
      intro other text written
      refine ⟨?_, ?_⟩
      · intro hWrites
        cases hWrites with
        | assign hWritten =>
            rw [← hNearest, hFound] at hWritten
            cases hWritten
            exact ⟨rfl, rfl, rfl⟩
      · rintro ⟨rfl, rfl, rfl⟩
        exact .assign hHolds

/- Every operation keeps the tree in step. -/
theorem apply
    (hFollows : tree.Follows history)
    (hMade : history.Made)
    {op : ScopeOp}
    (hScope : op.scope < history.size) :
    (op.apply tree).Follows (op :: history) := by
  cases op with
  | child scope =>
      exact hFollows.child hMade hScope
  | declare scope name value =>
      exact hFollows.declare hMade hScope name value
  | read scope name =>
      rw [ScopeOp.apply_read]
      apply hFollows.unchanged rfl
      intro other text written hWrites
      cases hWrites
  | assign scope name value =>
      exact hFollows.assign hMade hScope name value

end Follows

/- So every tree that is built follows its history. -/
theorem follows_tree
    {history : History}
    (hMade : history.Made) :
    history.tree.Follows history := by
  induction history with
  | nil =>
      exact follows_root
  | cons op earlier ih =>
      exact (ih hMade.2).apply hMade.2 hMade.1

end ScopeTree

end OcScript

------------------------------------------------------------
-- Scopes Follow Their History
------------------------------------------------------------

namespace OcScript

namespace ScopeTree

open History (Nearest LatestWrite)

variable {tree : ScopeTree}
variable {history : History}
variable {scope : Nat}
variable {name : Token}

namespace Follows

/- Some scope holds a name just if it was declared. -/
theorem exists_holder?_iff
    (hFollows : tree.Follows history)
    (hMade : history.Made)
    (hScope : scope < history.size)
    (name : String) :
    (∃ found, tree.holder? scope name = some found) ↔
      ∃ outer,
        history.Outward scope outer ∧
          history.Declared outer name := by
  rw [← History.exists_nearest_iff]
  exact
    exists_congr fun _ =>
      hFollows.holder?_eq_some_iff hMade hScope

/- A name has the value last written in the nearest scope. -/
theorem read_eq_ok_iff
    (hFollows : tree.Follows history)
    (hMade : history.Made)
    (hScope : scope < history.size)
    (value : Value) :
    tree.read scope name = .ok value ↔
      ∃ found,
        Nearest history name.lexeme scope found ∧
          LatestWrite history found name.lexeme value := by
  have hRead :
      tree.read scope name = .ok value ↔
        ∃ found,
          tree.holder? scope name.lexeme = some found ∧
            (tree.frame found)[name.lexeme]? =
              some value := by
    rw [read_eq, ← Option.bind_eq_some_iff]
    cases (tree.holder? scope name.lexeme).bind fun found =>
        (tree.frame found)[name.lexeme]? with
    | none =>
        simp
    | some found =>
        simp
  rw [hRead]
  apply exists_congr
  intro found
  rw [hFollows.holder?_eq_some_iff hMade hScope]
  apply and_congr_right
  intro hNearest
  exact hFollows.values (hNearest.declared.lt hMade) _ _

/- A name can be read where it was declared outward. -/
theorem exists_read_iff
    (hFollows : tree.Follows history)
    (hMade : history.Made)
    (hScope : scope < history.size)
    (name : Token) :
    (∃ value, tree.read scope name = .ok value) ↔
      ∃ outer,
        history.Outward scope outer ∧
          history.Declared outer name.lexeme := by
  rw [← History.exists_nearest_iff]
  simp only [hFollows.read_eq_ok_iff hMade hScope]
  refine ⟨?_, ?_⟩
  · rintro ⟨value, found, hNearest, -⟩
    exact ⟨found, hNearest⟩
  · rintro ⟨found, hNearest⟩
    rcases
        History.exists_latestWrite_iff.mpr
          hNearest.declared with
      ⟨value, hLatest⟩
    exact ⟨value, found, hNearest, hLatest⟩

end Follows

/-
  The scopes of a tree behave like the history of the
  operations made on them.  A name can be read just if it
  was declared in the scope or an ancestor of it, and then
  it has the value last written in the nearest such scope.
  It can be assigned just if it can be read, which changes
  that one binding, and no names.  Otherwise both fail at
  the name, and leave the tree as it was.
-/
theorem scopes_follow_history
    (history : History)
    (hMade : history.Made)
    (scope : Nat)
    (hScope : scope < history.size)
    (name : Token) :
    let tree := history.tree
    let isDeclared :=
      ∃ outer,
        history.Outward scope outer ∧
          history.Declared outer name.lexeme
    ((∃ value, tree.read scope name = .ok value) ↔
        isDeclared) ∧
      (∀ value,
        tree.read scope name = .ok value ↔
          ∃ found,
            Nearest history name.lexeme scope found ∧
              LatestWrite history found name.lexeme value) ∧
      (∀ error,
        tree.read scope name = .error error →
        error.token = name ∧
          error.message =
            "Undefined variable '" ++ name.lexeme ++ "'.") ∧
      (∀ value after,
        readFrom scope name tree = .ok value after ↔
          tree.read scope name = .ok value ∧
            after = tree) ∧
      (∀ error after,
        readFrom scope name tree = .error error after ↔
          tree.read scope name = .error error ∧
            after = tree) ∧
      History.tree (.read scope name :: history) = tree ∧
      ∀ value,
        let after :=
          History.tree (.assign scope name value :: history)
        ((∃ next, tree.assign scope name value = .ok next) ↔
            isDeclared) ∧
          (∀ error,
            tree.assign scope name value = .error error →
            error.token = name ∧
              error.message =
                "Undefined variable '" ++
                  name.lexeme ++ "'." ∧
              after = tree) ∧
          (∀ next,
            assignFrom scope name value tree = .ok () next ↔
              tree.assign scope name value = .ok next) ∧
          (∀ error next,
            assignFrom scope name value tree =
                .error error next ↔
              tree.assign scope name value = .error error ∧
                next = tree) ∧
          ∀ next,
            tree.assign scope name value = .ok next →
            after = next ∧
              next.paths = tree.paths ∧
              next.size = tree.size ∧
              ∃ found,
                Nearest history name.lexeme scope found ∧
                  (next.frame found)[name.lexeme]? =
                    some value ∧
                  (∀ other text,
                    (other, text) ≠ (found, name.lexeme) →
                    (next.frame other)[text]? =
                      (tree.frame other)[text]?) ∧
                  ∀ other text,
                    text ∈ next.frame other ↔
                      text ∈ tree.frame other := by
  intro tree isDeclared
  have hFollows : tree.Follows history := follows_tree hMade
  have hPath := hFollows.nodup_path hMade hScope
  have hHolder :
      (∃ found,
        tree.holder? scope name.lexeme = some found) ↔
        isDeclared :=
    hFollows.exists_holder?_iff hMade hScope name.lexeme
  refine
    ⟨hFollows.exists_read_iff hMade hScope name,
      hFollows.read_eq_ok_iff hMade hScope, ?_,
      readFrom_eq_ok_iff scope, readFrom_eq_error_iff scope,
      ScopeOp.apply_read tree scope name, ?_⟩
  · intro error hError
    rw [error_of_read hError]
    exact ⟨rfl, rfl⟩
  intro value after
  have hAfter :
      after =
        ScopeOp.apply tree (.assign scope name value) :=
    rfl
  rw [ScopeOp.apply, ScopeOp.perform] at hAfter
  rcases assign_cases hPath name value with
    ⟨found, hFound, hAssign, hWalk⟩ | ⟨hNone, hAssign, hWalk⟩
  · have hNearest :=
      (hFollows.holder?_eq_some_iff hMade hScope).mp hFound
    have hExists := hNearest.declared.lt hMade
    have hBound :=
      (hFollows.mem_frame_iff hExists _).mpr
        hNearest.declared
    rw [← hFollows.frames] at hExists
    rw [hWalk] at hAfter
    rw [hAssign, hWalk]
    refine ⟨?_, ?_, ?_, ?_, ?_⟩
    · exact
        ⟨fun _ => hHolder.mp ⟨found, hFound⟩,
          fun _ => ⟨_, rfl⟩⟩
    · intro error hError
      cases hError
    · simp
    · simp
    · intro next hNext
      cases hNext
      refine
        ⟨hAfter, rfl, List.length_set .., found, hNearest,
          ?_, ?_, ?_⟩
      · rw [getElem?_frame_binding hExists,
          if_pos ⟨rfl, rfl⟩]
      · intro other text hOther
        rw [getElem?_frame_binding hExists, if_neg]
        rintro ⟨rfl, rfl⟩
        exact hOther rfl
      · exact mem_frame_binding_iff hExists hBound value
  · rw [hWalk] at hAfter
    rw [hAssign, hWalk]
    refine ⟨?_, ?_, ?_, ?_, ?_⟩
    · rw [← hHolder, hNone]
      simp
    · intro error hError
      cases hError
      exact ⟨rfl, rfl, hAfter⟩
    · simp
    · intro error next
      simp [eq_comm]
    · intro next hNext
      cases hNext

/-
  Two children of the root and one of the first of them.
  The name `a` is declared in the root and in the innermost
  scope, and assigned from the first child.
-/
def sharedRoot : History :=
  [.assign 1 ⟨.identifier, "a", 2⟩ (.str "y"),
    .declare 3 "a" (.str "z"), .child 1, .child 0, .child 0,
    .declare 0 "a" (.str "x")]

/-
  The other child sees what was assigned, and the name `b`
  is seen from nowhere: reading it fails and leaves the tree
  as it is.
-/
theorem scopes_follow_history_sharedRoot :
    let a : Token := ⟨.identifier, "a", 3⟩
    let b : Token := ⟨.identifier, "b", 4⟩
    sharedRoot.Made ∧
      2 < sharedRoot.size ∧
      sharedRoot.tree.read 2 a = .ok (.str "y") ∧
      (∃ found,
        Nearest sharedRoot "a" 2 found ∧
          LatestWrite sharedRoot found "a" (.str "y")) ∧
      (¬ ∃ outer,
        sharedRoot.Outward 3 outer ∧
          sharedRoot.Declared outer b.lexeme) ∧
      readFrom 3 b sharedRoot.tree =
        .error ⟨b, .undefinedVariable⟩ sharedRoot.tree := by
  intro a b
  have hMade : sharedRoot.Made := by
    decide
  have hSecond : 2 < sharedRoot.size := by
    decide
  have hThird : 3 < sharedRoot.size := by
    decide
  have hSeen :
      (sharedRoot.tree.chain 2).get? "a" =
        some (.str "y") := by
    decide +kernel
  have hUnseen :
      (sharedRoot.tree.chain 3).get? "b" = none := by
    decide +kernel
  have hRead :
      sharedRoot.tree.read 2 a = .ok (.str "y") := by
    rw [read, Scopes.read, hSeen]
  have hUnread :
      sharedRoot.tree.read 3 b =
        .error ⟨b, .undefinedVariable⟩ := by
    rw [read, Scopes.read, hUnseen]
  have hReads :=
    scopes_follow_history sharedRoot hMade 2 hSecond a
  have hFails :=
    scopes_follow_history sharedRoot hMade 3 hThird b
  refine
    ⟨hMade, hSecond, hRead, (hReads.2.1 _).mp hRead, ?_, ?_⟩
  · intro hDeclared
    rcases hFails.1.mpr hDeclared with ⟨value, hOk⟩
    rw [hUnread] at hOk
    cases hOk
  · rcases hFails with ⟨-, -, -, -, hWalk, -⟩
    exact (hWalk _ _).mpr ⟨hUnread, rfl⟩

end ScopeTree

end OcScript
