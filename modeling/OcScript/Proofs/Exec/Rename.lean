import OcScript.Proofs.Exec.Allowance
import OcScript.Proofs.Exec.Lockstep

/-
  This file proves that the name of a variable of a block
  does not matter.

  A block that declares a variable and goes on with some
  statements is compared with the block that declares it by
  another name, which the statements do not use, and goes on
  with the statements renamed.  While both run, a name has
  in the first what its new name has in the second, and the
  frames outside of the block are the same.  When both are
  left, nothing is left to tell them apart.

  Key definitions include:
    * `OcScript.Stmt.names`
    * `OcScript.Stmt.renamed`
    * `OcScript.Scopes.Renamed`

  Key theorems include:
    * `OcScript.Scopes.Renamed.get?_eq`
    * `OcScript.Scopes.Renamed.assign?_rel`
    * `OcScript.Expr.lockstep_renamed`
    * `OcScript.Stmt.lockstep_renamed`
    * `OcScript.Stmt.exec_block_renamed`
    * `OcScript.Stmt.renamed_block_ends_alike`
-/

------------------------------------------------------------
-- Renamed Trees
------------------------------------------------------------

namespace OcScript

/- Change the name `x` to `y` and keep all others. -/
def newName
    (x y name : String) :
    String :=
  if name = x then y else name

theorem newName_self
    (x y : String) :
    newName x y x = y :=
  if_pos rfl

theorem newName_of_ne
    {x y name : String}
    (hOther : name ≠ x) :
    newName x y name = name :=
  if_neg hOther

/- Names other than the new one stay apart. -/
theorem newName_inj
    {x y name other : String}
    (hName : name ≠ y)
    (hOther : other ≠ y) :
    newName x y name = newName x y other ↔
      name = other := by
  unfold newName
  split <;> split <;> grind

/- Change the name of a token. -/
def Token.renamed
    (x y : String)
    (t : Token) :
    Token :=
  { t with lexeme := newName x y t.lexeme }

namespace Token

@[simp] theorem lexeme_renamed
    (x y : String)
    (t : Token) :
    (t.renamed x y).lexeme = newName x y t.lexeme :=
  rfl

theorem renamed_of_ne
    {x y : String}
    {t : Token}
    (hOther : t.lexeme ≠ x) :
    t.renamed x y = t := by
  unfold renamed
  rw [newName_of_ne hOther]

end Token

namespace Expr

/- Change a name wherever it is read or assigned. -/
def renamed
    (x y : String) :
    Expr → Expr :=
  mapNames (Token.renamed x y)

end Expr

namespace Stmt

mutual

/- The names that a statement reads, assigns, or declares. -/
def names : Stmt → List String
| .expression value => value.names
| .print _ value => value.names
| .declare name none => [name.lexeme]
| .declare name (some initial) =>
    name.lexeme :: initial.names
| .block body => namesAll body
| .ifThen condition thenBranch =>
    condition.names ++ thenBranch.names
| .ifElse condition thenBranch elseBranch =>
    condition.names ++ (thenBranch.names ++ elseBranch.names)
| .whileDo condition body => condition.names ++ body.names
| .skipped => []

/- The names of a list of statements. -/
def namesAll : List Stmt → List String
| [] => []
| s :: rest => s.names ++ namesAll rest

end

mutual

/- Change a name in a statement, and in its blocks. -/
def renamed
    (x y : String) :
    Stmt → Stmt
| .expression value => .expression (value.renamed x y)
| .print keyword value => .print keyword (value.renamed x y)
| .declare name none => .declare (name.renamed x y) none
| .declare name (some initial) =>
    .declare (name.renamed x y) (some (initial.renamed x y))
| .block body => .block (renamedAll x y body)
| .ifThen condition thenBranch =>
    .ifThen (condition.renamed x y) (thenBranch.renamed x y)
| .ifElse condition thenBranch elseBranch =>
    .ifElse (condition.renamed x y) (thenBranch.renamed x y)
      (elseBranch.renamed x y)
| .whileDo condition body =>
    .whileDo (condition.renamed x y) (body.renamed x y)
| .skipped => .skipped

/- Change a name in a list of statements. -/
def renamedAll
    (x y : String) :
    List Stmt → List Stmt
| [] => []
| s :: rest => s.renamed x y :: renamedAll x y rest

end

end Stmt

end OcScript

------------------------------------------------------------
-- Renamed Scopes
------------------------------------------------------------

namespace OcScript

namespace Frame

/-
  A frame binds a name as the other binds its new name.  The
  new name itself is never asked for in the first frame.
-/
def Renamed
    (x y : String)
    (frame other : Frame) :
    Prop :=
  ∀ name,
    name ≠ y → frame[name]? = other[newName x y name]?

variable {x y : String}
variable {frame other : Frame}

theorem renamed_empty :
    Renamed x y ∅ ∅ := by
  intro name _
  simp

theorem Renamed.mem_iff
    (hRenamed : Renamed x y frame other)
    {name : String}
    (hName : name ≠ y) :
    newName x y name ∈ other ↔ name ∈ frame := by
  rw [Std.ExtTreeMap.mem_iff_isSome_getElem?,
    Std.ExtTreeMap.mem_iff_isSome_getElem?,
    hRenamed name hName]

theorem Renamed.insert
    (hRenamed : Renamed x y frame other)
    {name : String}
    (hName : name ≠ y)
    (value : Value) :
    Renamed x y (frame.insert name value)
      (other.insert (newName x y name) value) := by
  intro asked hAsked
  simp only [Std.ExtTreeMap.getElem?_insert,
    Std.compare_eq_iff_eq, newName_inj hName hAsked,
    hRenamed asked hAsked]

/- A frame in which either name is declared. -/
theorem renamed_insert_same
    (frame : Frame)
    (x y : String)
    (value : Value) :
    Renamed x y (frame.insert x value)
      (frame.insert y value) := by
  intro asked hAsked
  by_cases hName : asked = x
  · subst hName
    rw [newName_self]
    simp
  · rw [newName_of_ne hName]
    simp only [Std.ExtTreeMap.getElem?_insert,
      Std.compare_eq_iff_eq, Ne.symm hName, Ne.symm hAsked]

end Frame

namespace Scopes

/-
  The scopes while both blocks run, with so many frames
  inside of the block's own.  The block's frame binds the
  old name, and the frames around it are the same.
-/
inductive Renamed
    (x y : String) :
    Nat → Scopes → Scopes → Prop where
| block
    {frame other : Frame}
    {outer : Scopes}
    (hBound : x ∈ frame)
    (hFrames : Frame.Renamed x y frame other) :
    Renamed x y 0 (frame :: outer) (other :: outer)
| inner
    {depth : Nat}
    {frame other : Frame}
    {scopes others : Scopes}
    (hFrames : Frame.Renamed x y frame other)
    (hOuter : Renamed x y depth scopes others) :
    Renamed x y (depth + 1) (frame :: scopes)
      (other :: others)

namespace Renamed

variable {x y : String}
variable {depth : Nat}
variable {scopes others : Scopes}

/- A name has the value that its new name has. -/
theorem get?_eq
    (hRenamed : Renamed x y depth scopes others)
    {name : String}
    (hName : name ≠ y) :
    others.get? (newName x y name) = scopes.get? name := by
  induction hRenamed with
  | @block frame other outer hBound hFrames =>
      rw [get?, get?, ← hFrames name hName]
      cases hValue : frame[name]? with
      | some value =>
          rfl
      | none =>
          -- Only an unbound name is looked up further out.
          have hOther : name ≠ x := by
            rintro rfl
            simp [hBound] at hValue
          rw [newName_of_ne hOther]
  | inner hFrames hOuter ih =>
      rw [get?, get?, ← hFrames name hName, ih]

/- The old name is bound. -/
theorem isSome_get?
    (hRenamed : Renamed x y depth scopes others) :
    (scopes.get? x).isSome = true := by
  induction hRenamed with
  | @block frame other outer hBound hFrames =>
      simp only [get?]
      cases hValue : frame[x]? with
      | some value =>
          rfl
      | none =>
          simp [hBound] at hValue
  | @inner depth frame other scopes others hFrames hOuter ih =>
      simp only [get?]
      cases frame[x]? with
      | some value =>
          rfl
      | none =>
          exact ih

/- A name that is bound nowhere keeps its name. -/
theorem ne_of_get?_eq_none
    (hRenamed : Renamed x y depth scopes others)
    {name : String}
    (hNone : scopes.get? name = none) :
    name ≠ x := by
  rintro rfl
  have hSome := hRenamed.isSome_get?
  rw [hNone] at hSome
  cases hSome

theorem declare
    (hRenamed : Renamed x y depth scopes others)
    {name : String}
    (hName : name ≠ y)
    (value : Value) :
    Renamed x y depth (scopes.declare name value)
      (others.declare (newName x y name) value) := by
  cases hRenamed with
  | block hBound hFrames =>
      apply Renamed.block
      · exact Std.ExtTreeMap.mem_insert.mpr (.inr hBound)
      · exact hFrames.insert hName value
  | inner hFrames hOuter =>
      exact .inner (hFrames.insert hName value) hOuter

/- A name can be assigned where its new name can. -/
theorem assign?_rel
    (hRenamed : Renamed x y depth scopes others)
    {name : String}
    (hName : name ≠ y)
    (value : Value) :
    Option.Rel (Renamed x y depth)
      (scopes.assign? name value)
      (others.assign? (newName x y name) value) := by
  induction hRenamed with
  | @block frame other outer hBound hFrames =>
      simp only [assign?, hFrames.mem_iff hName]
      by_cases hMem : name ∈ frame
      · rw [if_pos hMem, if_pos hMem]
        apply Option.Rel.some
        apply Renamed.block
        · exact Std.ExtTreeMap.mem_insert.mpr (.inr hBound)
        · exact hFrames.insert hName value
      · have hOther : name ≠ x := by
          rintro rfl
          exact hMem hBound
        rw [if_neg hMem, if_neg hMem, newName_of_ne hOther]
        cases assign? name value outer with
        | none =>
            exact .none
        | some assigned =>
            exact .some (.block hBound hFrames)
  | @inner depth frame other scopes others hFrames hOuter ih =>
      simp only [assign?, hFrames.mem_iff hName]
      by_cases hMem : name ∈ frame
      · rw [if_pos hMem, if_pos hMem]
        apply Option.Rel.some
        exact .inner (hFrames.insert hName value) hOuter
      · rw [if_neg hMem, if_neg hMem]
        generalize assign? name value scopes = first,
          assign? (newName x y name) value others = second
          at ih ⊢
        cases ih with
        | none =>
            exact .none
        | some hAssigned =>
            exact .some (.inner hFrames hAssigned)

theorem enter
    (hRenamed : Renamed x y depth scopes others) :
    Renamed x y (depth + 1) scopes.enter others.enter :=
  .inner Frame.renamed_empty hRenamed

theorem leave
    (hRenamed : Renamed x y (depth + 1) scopes others) :
    Renamed x y depth scopes.leave others.leave := by
  cases hRenamed with
  | inner hFrames hOuter =>
      exact hOuter

/- Outside of the block there is no difference. -/
theorem leave_eq
    (hRenamed : Renamed x y 0 scopes others) :
    scopes.leave = others.leave := by
  cases hRenamed with
  | block hBound hFrames =>
      rfl

end Renamed

/- Either name is declared in the same scopes. -/
theorem renamed_declare
    (scopes : Scopes)
    (x y : String)
    (value : Value) :
    Renamed x y 0 (scopes.declare x value)
      (scopes.declare y value) := by
  cases scopes with
  | nil =>
      apply Renamed.block
      · exact Std.ExtTreeMap.mem_insert_self
      · exact Frame.renamed_insert_same ∅ x y value
  | cons frame outer =>
      apply Renamed.block
      · exact Std.ExtTreeMap.mem_insert_self
      · exact Frame.renamed_insert_same frame x y value

end Scopes

end OcScript

------------------------------------------------------------
-- Renamed Statements in Lockstep
------------------------------------------------------------

namespace OcScript

open Scopes (Renamed)

variable {x y : String}

namespace Evaluation

theorem lockstep_read
    (depth : Nat)
    {name : Token}
    (hName : name.lexeme ≠ y) :
    Lockstep (Renamed x y depth) (read name)
      (read (name.renamed x y)) := by
  intro scopes others hRenamed
  unfold read Scopes.read
  rw [Token.lexeme_renamed, hRenamed.get?_eq hName]
  cases hValue : scopes.get? name.lexeme with
  | some value =>
      exact .ok hRenamed
  | none =>
      have hOther := hRenamed.ne_of_get?_eq_none hValue
      rw [Token.renamed_of_ne hOther]
      exact .error hRenamed

theorem lockstep_assign
    (depth : Nat)
    {name : Token}
    (hName : name.lexeme ≠ y)
    (value : Value) :
    Lockstep (Renamed x y depth) (assign name value)
      (assign (name.renamed x y) value) := by
  intro scopes others hRenamed
  have hRel := hRenamed.assign?_rel hName value
  have hBound := scopes.isSome_assign? name.lexeme value
  unfold assign Scopes.assign
  rw [Token.lexeme_renamed]
  generalize scopes.assign? name.lexeme value = first,
    others.assign? (newName x y name.lexeme) value = second
    at hRel hBound ⊢
  cases hRel with
  | some hAssigned =>
      exact .ok hAssigned
  | none =>
      have hNone : scopes.get? name.lexeme = none := by
        simpa using hBound.symm
      have hOther := hRenamed.ne_of_get?_eq_none hNone
      rw [Token.renamed_of_ne hOther]
      exact .error hRenamed

end Evaluation

/- A renamed expression has the same value. -/
theorem Expr.lockstep_renamed
    (depth : Nat)
    {e : Expr}
    (hFresh : y ∉ e.names) :
    Lockstep (Renamed x y depth) e.eval
      (e.renamed x y).eval := by
  apply Expr.lockstep_mapNames
  intro name hMem
  have hName : name.lexeme ≠ y := by
    rintro rfl
    exact hFresh hMem
  exact
    ⟨Evaluation.lockstep_read depth hName,
      Evaluation.lockstep_assign depth hName⟩

variable {W : Type}

namespace Execution

open Machine (Alike)

theorem lockstep_evaluate_renamed
    (depth : Nat)
    {e : Expr}
    (hFresh : y ∉ e.names) :
    Lockstep (Alike (W := W) Eq (Renamed x y depth))
      (evaluate e) (evaluate (e.renamed x y)) := by
  apply lockstep_evaluate
  exact Expr.lockstep_renamed depth hFresh

theorem lockstep_declare_renamed
    (depth : Nat)
    {name : Token}
    (hName : name.lexeme ≠ y)
    (value : Value) :
    Lockstep (Alike (W := W) Eq (Renamed x y depth))
      (declare name value)
      (declare (name.renamed x y) value) := by
  apply lockstep_declare
  intro scopes others hRenamed
  exact hRenamed.declare hName value

end Execution

namespace Stmt

open Execution (lockstep_evaluate_renamed
  lockstep_declare_renamed)
open Machine (Alike)

variable [Writer W]

/- If the members keep in step, so do their lists. -/
theorem lockstep_renamedAll_of_forall
    {allowance depth : Nat}
    {body : List Stmt}
    (hMembers :
      ∀ s ∈ body,
        y ∉ s.names →
        Lockstep (Alike (W := W) Eq (Renamed x y depth))
          (s.exec allowance)
          ((s.renamed x y).exec allowance))
    (hFresh : y ∉ namesAll body) :
    Lockstep (Alike (W := W) Eq (Renamed x y depth))
      (execAll allowance body)
      (execAll allowance (renamedAll x y body)) := by
  induction body with
  | nil =>
      exact Lockstep.pure ()
  | cons s rest ih =>
      rw [List.forall_mem_cons] at hMembers
      rw [namesAll, List.mem_append, not_or] at hFresh
      apply (hMembers.1 hFresh.1).bind
      intro _
      exact ih hMembers.2 hFresh.2

/- A renamed statement does the same inside of the block. -/
theorem lockstep_renamed
    (allowance depth : Nat)
    {s : Stmt}
    (hFresh : y ∉ s.names) :
    Lockstep (Alike (W := W) Eq (Renamed x y depth))
      (s.exec allowance) ((s.renamed x y).exec allowance) := by
  induction s generalizing depth with
  | expression value =>
      apply (lockstep_evaluate_renamed depth hFresh).bind
      intro _
      exact Lockstep.pure ()
  | print keyword value =>
      apply (lockstep_evaluate_renamed depth hFresh).bind
      intro printed
      exact Execution.lockstep_useSink keyword (.refl _)
  | declare name initial =>
      cases initial with
      | none =>
          rw [names, List.mem_singleton] at hFresh
          exact
            lockstep_declare_renamed depth (Ne.symm hFresh)
              .null
      | some initial =>
          rw [names, List.mem_cons, not_or] at hFresh
          apply (lockstep_evaluate_renamed depth hFresh.2).bind
          intro value
          exact
            lockstep_declare_renamed depth
              (Ne.symm hFresh.1) value
  | block body ih =>
      -- The frame of the inner block is one frame deeper.
      have hBody :
          Lockstep
            (Alike (W := W) Eq (Renamed x y (depth + 1)))
            (execAll allowance body)
            (execAll allowance (renamedAll x y body)) := by
        apply lockstep_renamedAll_of_forall _ hFresh
        intro s hMem hNames
        exact ih s hMem (depth + 1) hNames
      apply Execution.lockstep_inNewScope _ _ hBody
      · intro scopes others hRenamed
        exact hRenamed.enter
      · intro scopes others hRenamed
        exact hRenamed.leave
  | ifThen condition thenBranch ih =>
      rw [names, List.mem_append, not_or] at hFresh
      apply (lockstep_evaluate_renamed depth hFresh.1).bind
      intro value
      split
      · exact ih depth hFresh.2
      · exact Lockstep.pure ()
  | ifElse condition thenBranch elseBranch thenIH elseIH =>
      rw [names, List.mem_append, List.mem_append, not_or,
        not_or] at hFresh
      apply (lockstep_evaluate_renamed depth hFresh.1).bind
      intro value
      split
      · exact thenIH depth hFresh.2.1
      · exact elseIH depth hFresh.2.2
  | whileDo condition body ih =>
      rw [names, List.mem_append, not_or] at hFresh
      have hCondition :=
        lockstep_evaluate_renamed (W := W) (x := x) depth
          hFresh.1
      exact
        Execution.lockstep_repeatWhile
          (hCondition.map Value.truthy)
          (ih depth hFresh.2) allowance
  | skipped =>
      exact Lockstep.pure ()

end Stmt

end OcScript

------------------------------------------------------------
-- Renamed Blocks
------------------------------------------------------------

namespace OcScript

open Machine (Alike)

variable {W : Type}

/-
  Executions that differ in the innermost frame only do the
  same in a scope of their own.
-/
theorem Execution.inNewScope_eq
    {action other : Execution W Unit}
    {machine : Machine W}
    (hSame :
      SameResult
        (Alike Eq fun scopes others =>
          scopes.leave = others.leave)
        (action
          { machine with scopes := machine.scopes.enter })
        (other
          { machine with scopes := machine.scopes.enter })) :
    inNewScope action machine = inNewScope other machine := by
  apply SameResult.eq
  apply (sameResult_inNewScope (fun _ _ => id) hSame).mono
  rintro ⟨scopes, sink⟩ ⟨others, _⟩ ⟨rfl, rfl⟩
  rfl

namespace Stmt

open Execution (EndAlike Ending Ends)

variable [Writer W]

/- Either name is declared, and the statements go on. -/
theorem sameResult_of_declare
    (allowance : Nat)
    {name other : Token}
    {body : List Stmt}
    (hFresh : other.lexeme ∉ namesAll body)
    (value : Value)
    (machine : Machine W) :
    let renamedBody :=
      renamedAll name.lexeme other.lexeme body
    SameResult
      (Alike Eq fun scopes others =>
        scopes.leave = others.leave)
      ((Execution.declare name value >>= fun _ =>
        execAll allowance body) machine)
      ((Execution.declare other value >>= fun _ =>
        execAll allowance renamedBody) machine) := by
  intro renamedBody
  have hBody :
      Lockstep
        (Alike (W := W) Eq
          (Scopes.Renamed name.lexeme other.lexeme 0))
        (execAll allowance body)
        (execAll allowance renamedBody) := by
    apply lockstep_renamedAll_of_forall _ hFresh
    intro s _ hNames
    exact lockstep_renamed allowance 0 hNames
  have hDeclared :
      Alike Eq (Scopes.Renamed name.lexeme other.lexeme 0)
        { machine with
          scopes := machine.scopes.declare name.lexeme value }
        { machine with
          scopes :=
            machine.scopes.declare other.lexeme value } :=
    ⟨rfl, Scopes.renamed_declare _ _ _ value⟩
  apply SameResult.mono (hBody _ _ hDeclared)
  intro m n hAlike
  exact ⟨hAlike.sink, hAlike.scopes.leave_eq⟩

/- With any allowance, both blocks do the very same. -/
theorem exec_block_renamed
    (allowance : Nat)
    {name other : Token}
    (initial : Option Expr)
    {body : List Stmt}
    (hFresh : other.lexeme ∉ namesAll body) :
    ((Stmt.block (.declare name initial :: body)).exec
        allowance : Execution W Unit) =
      (Stmt.block
        (.declare other initial ::
          renamedAll name.lexeme other.lexeme body)).exec
        allowance := by
  funext machine
  apply Execution.inNewScope_eq
  generalize
    { machine with scopes := machine.scopes.enter } =
      entered
  cases initial with
  | none =>
      exact
        sameResult_of_declare allowance hFresh .null entered
  | some initial =>
      -- The initial value is found before either name is.
      simp only [execAll, exec, bind_assoc]
      simp only [bind, EStateM.bind]
      cases hValue :
          Execution.evaluate initial entered with
      | ok value between =>
          exact
            sameResult_of_declare allowance hFresh value
              between
      | error stop between =>
          exact .error ⟨rfl, rfl⟩

/-
  Renaming a variable of a block changes nothing.  A block
  declares a variable and goes on with statements in which
  another name is not read, assigned, or declared.  The
  block that declares the other name instead, with the
  statements renamed, diverges on the same machines, and
  where the two end, they end alike: with the same failure
  or none, the same output, and the same bindings in every
  scope.
-/
theorem renamed_block_ends_alike
    (machine : Machine W)
    (name other : Token)
    (initial : Option Expr)
    (body : List Stmt)
    (hFresh : other.lexeme ∉ namesAll body) :
    let original :=
      Stmt.block (.declare name initial :: body)
    let renamed :=
      Stmt.block
        (.declare other initial ::
          renamedAll name.lexeme other.lexeme body)
    (Execution.Diverges (original.exec ·) machine ∧
        Execution.Diverges (renamed.exec ·) machine) ∨
      ∃ ending,
        Execution.Ends (original.exec ·) machine ending ∧
          Execution.Ends (renamed.exec ·) machine ending := by
  intro original renamed
  apply (steady_exec original).endAlike_of_eq
  intro allowance
  exact (exec_block_renamed allowance initial hFresh).symm

/-
  Statements that change `a` from an inner block, declare it
  anew there, and print it.
-/
def exclaiming : List Stmt :=
  let a : Token := ⟨.identifier, "a", 2⟩
  let plus : Token := ⟨.symbol .plus, "+", 2⟩
  let exclaimed :=
    Expr.binary (.var a) plus (.literal (.str "!"))
  [.block
      [.expression (.assign a exclaimed), .declare a none],
    .print ⟨.keyword .printWord, "est", 3⟩ (.var a)]

/-
  The new name is bound outside of the block, and read.  The
  blocks print what the inner block made of it, and leave it
  as it was.
-/
theorem renamed_block_ends_alike_exclaiming :
    let a : Token := ⟨.identifier, "a", 1⟩
    let b : Token := ⟨.identifier, "b", 1⟩
    let machine : Machine Sink :=
      ⟨[(∅ : Frame).insert "b" (.str "x")], .unbounded⟩
    let original :=
      Stmt.block (.declare a (some (.var b)) :: exclaiming)
    let renamed :=
      Stmt.block
        (.declare b (some (.var b)) ::
          renamedAll "a" "b" exclaiming)
    "b" ∉ namesAll exclaiming ∧
      ∃ ending,
        Ends (original.exec ·) machine ending ∧
          Ends (renamed.exec ·) machine ending ∧
          ending.failure? = none ∧
          ending.machine.sink.written = "x!\n".toUTF8 ∧
          ending.machine.scopes.length = 1 ∧
          ending.machine.scopes.get? "a" = none ∧
          ending.machine.scopes.get? "b" =
            some (.str "x") := by
  intro a b machine original renamed
  have hFresh : "b" ∉ namesAll exclaiming := by
    decide +kernel
  have hShown :
      (Ending.ofResult? (original.exec 1 machine)).map
          (fun ending =>
            (ending.failure?, ending.machine.sink.written,
              ending.machine.scopes.length,
              ending.machine.scopes.get? "a",
              ending.machine.scopes.get? "b")) =
        some
          (none, "x!\n".toUTF8, 1, none,
            some (.str "x")) := by
    decide +kernel
  rcases Option.map_eq_some_iff.mp hShown with
    ⟨ending, hEnding, hFields⟩
  simp only [Prod.mk.injEq] at hFields
  have hEnds : Ends (original.exec ·) machine ending :=
    (steady_exec original).ends_of_eq
      (Ending.result_of_ofResult? hEnding)
  have hAlike :
      EndAlike (original.exec ·) (renamed.exec ·) machine :=
    renamed_block_ends_alike machine a b (some (.var b))
      exclaiming hFresh
  exact
    ⟨hFresh, ending, hEnds, hAlike.of_ends hEnds, hFields⟩

end Stmt

end OcScript
