import OcScript.Scopes

/-
  This file defines trees of scopes, in which several scopes
  can share the scope that encloses them.

  Every scope of a tree sees a chain of frames: its own and
  those of its ancestors.  Reading and assigning a name in a
  scope is reading and assigning it in that chain, so an
  assignment made in one scope is seen in all scopes that
  share the frame it changes.

  Key definitions include:
    * `OcScript.ScopeTree`
    * `OcScript.ScopeTree.chain`
    * `OcScript.ScopeTree.child`
    * `OcScript.ScopeTree.read`
    * `OcScript.ScopeTree.declare`
    * `OcScript.ScopeTree.assign`
-/

------------------------------------------------------------
-- Scope Trees
------------------------------------------------------------

namespace OcScript

/-
  A tree of scopes, each known by its position.  The path of
  a scope lists its own position and then those of its
  ancestors, up to the root.
-/
structure ScopeTree where
  frames : List Frame
  paths : List (List Nat)

namespace ScopeTree

/- The tree whose only scope is its root. -/
def root : ScopeTree :=
  ⟨[∅], [[0]]⟩

/- The number of scopes in a tree. -/
def size
    (tree : ScopeTree) :
    Nat :=
  tree.frames.length

/- The path from a scope to the root. -/
def path
    (tree : ScopeTree)
    (scope : Nat) :
    List Nat :=
  tree.paths.getD scope []

/- The frames a scope sees, its own first. -/
def chain
    (tree : ScopeTree)
    (scope : Nat) :
    Scopes :=
  (tree.path scope).map fun i => tree.frames.getD i ∅

/- Put the frames a scope sees back into the tree. -/
def putChain
    (tree : ScopeTree)
    (scope : Nat)
    (chain : Scopes) :
    ScopeTree :=
  { tree with
    frames :=
      ((tree.path scope).zip chain).foldl
        (fun frames (i, frame) => frames.set i frame)
        tree.frames }

/- Add a scope enclosed by another at the next position. -/
def child
    (tree : ScopeTree)
    (scope : Nat) :
    ScopeTree :=
  { frames := tree.frames ++ [∅]
    paths := tree.paths ++ [tree.size :: tree.path scope] }

/- The scope that encloses a scope, unless it is the root. -/
def enclosing?
    (tree : ScopeTree)
    (scope : Nat) :
    Option Nat :=
  (tree.path scope).tail.head?

/- The value of a name as a scope sees it. -/
def read
    (tree : ScopeTree)
    (scope : Nat)
    (name : Token) :
    Except RuntimeError Value :=
  (tree.chain scope).read name

/- Bind a name in a scope. -/
def declare
    (tree : ScopeTree)
    (scope : Nat)
    (name : String)
    (value : Value) :
    ScopeTree :=
  tree.putChain scope
    ((tree.chain scope).declare name value)

/- Assign a value to a name as a scope sees it. -/
def assign
    (tree : ScopeTree)
    (scope : Nat)
    (name : Token)
    (value : Value) :
    Except RuntimeError ScopeTree :=
  ((tree.chain scope).assign name value).map
    (tree.putChain scope)

end ScopeTree

end OcScript
