import OcScript.Proofs.Exec.Allowance
import OcScript.Proofs.Exec.Keeps
import OcScript.Proofs.Exec.Lockstep

/-
  This file compares a run whose sink is limited with the
  run whose sink is not.

  As long as the lines that are printed fit, the two do the
  same.  If a line does not fit, the limited run stops there
  with what fits, blames the keyword of that line, and has
  the bindings that the other run has just before it writes
  the line.  The other run goes on.

  Key definitions include:
    * `OcScript.Printing`
    * `OcScript.Stmt.Prints`
    * `OcScript.Sink.Within`
    * `OcScript.Execution.Stopped`
    * `OcScript.Execution.StopsWhenFull`

  Key theorems include:
    * `OcScript.Execution.StopsWhenFull.bind`
    * `OcScript.Stmt.stopsWhenFull_exec`
    * `OcScript.Execution.limited_run_writes_first_bytes`
-/

------------------------------------------------------------
-- Lines to Be Printed
------------------------------------------------------------

namespace OcScript

/-
  A line that is about to be printed: the keyword to blame,
  the text, and the machine just before the line is written.
-/
structure Printing where
  keyword : Token
  text : String
  machine : Machine Sink

namespace Printing

/- The bytes in the sink before the line is written. -/
def before
    (line : Printing) :
    ByteArray :=
  line.machine.sink.written

/- The bytes of the line. -/
def bytes
    (line : Printing) :
    ByteArray :=
  (line.text ++ "\n").toUTF8

/- The bytes in the sink if the whole line is written. -/
def after
    (line : Printing) :
    ByteArray :=
  line.before ++ line.bytes

end Printing

namespace Stmt

open Execution (evaluate Ends)

mutual

/-
  The execution of a statement comes to print a line.  What
  is executed before has reached its end.
-/
inductive Prints :
    Stmt → Machine Sink → Printing → Prop where
| print
    {keyword : Token}
    {value : Expr}
    {machine between : Machine Sink}
    {printed : Value}
    (hValue : evaluate value machine = .ok printed between) :
    Prints (.print keyword value) machine
      ⟨keyword, printed.text, between⟩
| block
    {body : List Stmt}
    {machine : Machine Sink}
    {line : Printing}
    (hBody :
      PrintsAll body
        { machine with scopes := machine.scopes.enter }
        line) :
    Prints (.block body) machine line
| ifThen
    {condition : Expr}
    {thenBranch : Stmt}
    {machine between : Machine Sink}
    {tested : Value}
    {line : Printing}
    (hTested :
      evaluate condition machine = .ok tested between)
    (hTruthy : tested.truthy = true)
    (hThen : Prints thenBranch between line) :
    Prints (.ifThen condition thenBranch) machine line
| thenOfIfElse
    {condition : Expr}
    {thenBranch elseBranch : Stmt}
    {machine between : Machine Sink}
    {tested : Value}
    {line : Printing}
    (hTested :
      evaluate condition machine = .ok tested between)
    (hTruthy : tested.truthy = true)
    (hThen : Prints thenBranch between line) :
    Prints (.ifElse condition thenBranch elseBranch) machine
      line
| elseOfIfElse
    {condition : Expr}
    {thenBranch elseBranch : Stmt}
    {machine between : Machine Sink}
    {tested : Value}
    {line : Printing}
    (hTested :
      evaluate condition machine = .ok tested between)
    (hFalsy : tested.truthy = false)
    (hElse : Prints elseBranch between line) :
    Prints (.ifElse condition thenBranch elseBranch) machine
      line
| firstTurn
    {condition : Expr}
    {body : Stmt}
    {machine between : Machine Sink}
    {tested : Value}
    {line : Printing}
    (hTested :
      evaluate condition machine = .ok tested between)
    (hTruthy : tested.truthy = true)
    (hBody : Prints body between line) :
    Prints (.whileDo condition body) machine line
| laterTurn
    {condition : Expr}
    {body : Stmt}
    {machine between later : Machine Sink}
    {tested : Value}
    {line : Printing}
    (hTested :
      evaluate condition machine = .ok tested between)
    (hTruthy : tested.truthy = true)
    (hBody : Ends (body.exec ·) between ⟨none, later⟩)
    (hLater : Prints (.whileDo condition body) later line) :
    Prints (.whileDo condition body) machine line

/- So does the execution of statements in order. -/
inductive PrintsAll :
    List Stmt → Machine Sink → Printing → Prop where
| head
    {s : Stmt}
    {rest : List Stmt}
    {machine : Machine Sink}
    {line : Printing}
    (hFirst : Prints s machine line) :
    PrintsAll (s :: rest) machine line
| tail
    {s : Stmt}
    {rest : List Stmt}
    {machine between : Machine Sink}
    {line : Printing}
    (hFirst : Ends (s.exec ·) machine ⟨none, between⟩)
    (hRest : PrintsAll rest between line) :
    PrintsAll (s :: rest) machine line

end

end Stmt

end OcScript

------------------------------------------------------------
-- The Depth of Scopes
------------------------------------------------------------

namespace OcScript

namespace Scopes

/- Assigning does not change the number of frames. -/
theorem length_of_assign?
    {scopes assigned : Scopes}
    {name : String}
    {value : Value}
    (hAssigned :
      scopes.assign? name value = some assigned) :
    assigned.length = scopes.length := by
  induction scopes generalizing assigned with
  | nil =>
      cases hAssigned
  | cons frame outer ih =>
      rw [assign?] at hAssigned
      split at hAssigned
      · cases hAssigned
        rfl
      · rcases Option.map_eq_some_iff.mp hAssigned with
          ⟨rest, hRest, rfl⟩
        rw [List.length_cons, List.length_cons, ih hRest]

/- Nor does declaring, if there is a frame. -/
theorem length_declare
    {scopes : Scopes}
    (hScopes : scopes ≠ [])
    (name : String)
    (value : Value) :
    (scopes.declare name value).length = scopes.length := by
  cases scopes with
  | nil =>
      exact absurd rfl hScopes
  | cons frame outer =>
      rfl

theorem length_leave
    {scopes : Scopes}
    {depth : Nat}
    (hLength : scopes.length = depth + 1) :
    scopes.leave.length = depth := by
  rw [leave, List.length_tail, hLength, Nat.add_sub_cancel]

/- The scopes are the same, and so deep. -/
structure SameAt
    (depth : Nat)
    (scopes others : Scopes) :
    Prop where
  same : scopes = others
  length : scopes.length = depth

/- The last of some frames is the last of all of them. -/
theorem eq_globals_of_suffix
    {scopes inner : Scopes}
    (hSuffix : scopes <:+ inner)
    (hLength : scopes.length = 1) :
    scopes = [inner.globals] := by
  rcases List.length_eq_one_iff.mp hLength with
    ⟨frame, rfl⟩
  rcases hSuffix with ⟨front, rfl⟩
  simp [globals]

end Scopes

open Scopes (SameAt)

/- A name is read and assigned at the same depth. -/
theorem Evaluation.namesAlike_self
    (depth : Nat)
    (name : Token) :
    NamesAlike (SameAt depth) name name := by
  apply namesAlike_of_scopes
  · rintro scopes _ ⟨rfl, _⟩
    rfl
  · rintro value scopes _ ⟨rfl, hLength⟩
    cases hAssigned : scopes.assign? name.lexeme value with
    | some assigned =>
        have hSame := Scopes.length_of_assign? hAssigned
        exact .some ⟨rfl, hSame.trans hLength⟩
    | none =>
        exact .none

/- An evaluation does not change the number of frames. -/
theorem Expr.lockstep_eval_self
    (depth : Nat)
    (e : Expr) :
    Lockstep (SameAt depth) e.eval e.eval :=
  lockstep_self fun name _ =>
    Evaluation.namesAlike_self depth name

end OcScript

------------------------------------------------------------
-- Limited Sinks
------------------------------------------------------------

namespace OcScript

/- The first bytes of few bytes are all of them. -/
theorem extract_zero_of_size_le
    {bytes : ByteArray}
    {n : Nat}
    (hSize : bytes.size ≤ n) :
    bytes.extract 0 n = bytes := by
  rw [← Nat.max_eq_left hSize]
  exact ByteArray.extract_zero_max_size

/- Bytes that follow do not change the first bytes. -/
theorem extract_zero_append
    {bytes : ByteArray}
    {n : Nat}
    (hSize : n ≤ bytes.size)
    (more : ByteArray) :
    (bytes ++ more).extract 0 n = bytes.extract 0 n := by
  rw [ByteArray.extract_append, Nat.zero_sub,
    Nat.sub_eq_zero_of_le hSize, ByteArray.extract_same,
    ByteArray.append_empty]

namespace Sink

/-
  The second sink is the first one with a capacity, which
  was enough so far.
-/
structure Within
    (capacity : Nat)
    (whole cut : Sink) :
    Prop where
  unlimited : whole.capacity = none
  limited : cut = { whole with capacity := some capacity }
  fits : whole.written.size ≤ capacity

/- Bytes for which there is room are written to both. -/
theorem Within.sameResult_write
    {capacity : Nat}
    {whole cut : Sink}
    (hWithin : Within capacity whole cut)
    {bytes : ByteArray}
    (hRoom : (whole.written ++ bytes).size ≤ capacity) :
    SameResult (Within capacity) (write bytes whole)
      (write bytes cut) := by
  rcases hWithin with ⟨hUnlimited, rfl, hFits⟩
  have hBytes :
      bytes.size ≤ capacity - whole.written.size := by
    rw [ByteArray.size_append] at hRoom
    omega
  simp only [write, hUnlimited, if_pos hBytes]
  exact .ok ⟨rfl, rfl, hRoom⟩

/- Of other bytes, the limited sink keeps what fits. -/
theorem Within.write_eq_full
    {capacity : Nat}
    {whole cut : Sink}
    (hWithin : Within capacity whole cut)
    {bytes : ByteArray}
    (hRoom : capacity < (whole.written ++ bytes).size) :
    write bytes cut =
      .error .full
        { cut with
          written :=
            (whole.written ++ bytes).extract 0 capacity } := by
  rcases hWithin with ⟨hUnlimited, rfl, hFits⟩
  have hBytes :
      ¬ bytes.size ≤ capacity - whole.written.size := by
    rw [ByteArray.size_append] at hRoom
    omega
  simp only [write, if_neg hBytes, ByteArray.extract_append,
    extract_zero_of_size_le hFits, Nat.zero_sub]

/- An unlimited sink takes all bytes. -/
theorem Within.write_eq_ok
    {capacity : Nat}
    {whole cut : Sink}
    (hWithin : Within capacity whole cut)
    (bytes : ByteArray) :
    write bytes whole =
      .ok ()
        { whole with written := whole.written ++ bytes } := by
  simp only [write, hWithin.unlimited]

/- A capacity has nothing to do with flushing. -/
theorem lockstep_flush
    (capacity : Nat) :
    Lockstep (Within capacity) flush flush := by
  rintro whole _ ⟨hUnlimited, rfl, hFits⟩
  unfold flush
  split
  · exact .ok ⟨hUnlimited, rfl, hFits⟩
  · exact .error ⟨hUnlimited, rfl, hFits⟩

end Sink

end OcScript

------------------------------------------------------------
-- Executions That Stop at a Full Sink
------------------------------------------------------------

namespace OcScript

/-
  The machines differ in the capacity of their sinks only,
  which was enough so far, and have so many frames.
-/
abbrev Machine.Within
    (capacity depth : Nat) :
    Machine Sink → Machine Sink → Prop :=
  Alike (Sink.Within capacity) (Scopes.SameAt depth)

namespace Execution

open Machine (Within)

theorem useSink_eq_of_ok
    (blamed : Token)
    {action : EStateM SinkError Sink Unit}
    {machine : Machine Sink}
    {sink : Sink}
    (hResult : action machine.sink = .ok () sink) :
    useSink blamed action machine =
      .ok () { machine with sink := sink } := by
  simp only [useSink, hResult]

theorem useSink_eq_of_error
    (blamed : Token)
    {action : EStateM SinkError Sink Unit}
    {machine : Machine Sink}
    {error : SinkError}
    {sink : Sink}
    (hResult : action machine.sink = .error error sink) :
    useSink blamed action machine =
      .error (.failure ⟨blamed, .sink error⟩)
        { machine with sink := sink } := by
  simp only [useSink, hResult]

/- Flushing changes nothing, and may fail. -/
theorem useSink_flush_cases
    (blamed : Token)
    (machine : Machine Sink) :
    useSink blamed Writer.flush machine = .ok () machine ∨
      useSink blamed Writer.flush machine =
        .error (.failure ⟨blamed, .sink .notFlushed⟩)
          machine := by
  by_cases hFlushes : machine.sink.flushes = true
  · exact .inl (useSink_eq_of_ok blamed (if_pos hFlushes))
  · exact .inr (useSink_eq_of_error blamed (if_neg hFlushes))

/- A new scope has no part in what is written. -/
theorem sink_stateAfter_inNewScope
    (x : Execution Sink Unit)
    (machine : Machine Sink) :
    (stateAfter (inNewScope x) machine).sink =
      (stateAfter x
        { machine with
          scopes := machine.scopes.enter }).sink := by
  unfold stateAfter inNewScope
  cases x { machine with scopes := machine.scopes.enter } with
  | ok _ after =>
      rfl
  | error stop after =>
      rfl

/-
  An execution was stopped at a line which does not fit, and
  left a machine.  It keeps what fits of that line, and the
  frames that are not inside of the execution.  Without the
  limit the line is written, and maybe more after it.
-/
structure Stopped
    (capacity depth : Nat)
    (line : Printing)
    (left : Machine Sink)
    (output : ByteArray) :
    Prop where
  before : line.before.size ≤ capacity
  after : capacity < line.after.size
  kept : left.sink.written = line.after.extract 0 capacity
  scopes : left.scopes <:+ line.machine.scopes
  depth : left.scopes.length = depth
  output : ∃ more, output = line.after ++ more

/- It does not matter what is written later. -/
theorem Stopped.mono
    {capacity depth : Nat}
    {line : Printing}
    {left : Machine Sink}
    {before after : Sink}
    (hStopped :
      Stopped capacity depth line left before.written)
    (hExtends : before.Extends after) :
    Stopped capacity depth line left after.written := by
  rcases hStopped.output with ⟨early, hEarly⟩
  rcases hExtends.written with ⟨late, hLate⟩
  refine { hStopped with output := ⟨early ++ late, ?_⟩ }
  rw [hLate, hEarly, ByteArray.append_assoc]

/- What a full sink says, with the keyword that is blamed. -/
def fullAt
    (line : Printing) :
    Stop :=
  .failure ⟨line.keyword, .sink .full⟩

/-
  With a limited sink, the execution does what it does
  without the limit, or it stops at one of the lines that it
  prints without the limit.
-/
structure StopsWhenFull
    {α : Type}
    (capacity depth : Nat)
    (Prints : Machine Sink → Printing → Prop)
    (x : Execution Sink α) :
    Prop where
  grows :
    Keeps (fun before after => before.sink.Extends after.sink)
      x
  stops :
    ∀ whole cut,
      Within capacity depth whole cut →
      SameResult (Within capacity depth) (x whole) (x cut) ∨
        ∃ line left,
          Prints whole line ∧
            x cut = .error (fullAt line) left ∧
            Stopped capacity depth line left
              (stateAfter x whole).sink.written

namespace StopsWhenFull

variable {α β : Type}
variable {capacity depth : Nat}
variable {Prints Others : Machine Sink → Printing → Prop}

theorem mono
    {x : Execution Sink α}
    (hStops : StopsWhenFull capacity depth Prints x)
    (hWeaker :
      ∀ machine line,
        Prints machine line → Others machine line) :
    StopsWhenFull capacity depth Others x := by
  refine ⟨hStops.grows, ?_⟩
  intro whole cut hWithin
  rcases hStops.stops whole cut hWithin with
    hSame | ⟨line, left, hPrints, hError, hStopped⟩
  · exact .inl hSame
  · exact
      .inr
        ⟨line, left, hWeaker whole line hPrints, hError,
          hStopped⟩

/- An execution in lockstep with itself prints no line. -/
theorem of_lockstep
    {x : Execution Sink α}
    (hGrows :
      Keeps
        (fun before after => before.sink.Extends after.sink)
        x)
    (hLockstep : Lockstep (Within capacity depth) x x) :
    StopsWhenFull capacity depth (fun _ _ => False) x := by
  refine ⟨hGrows, ?_⟩
  intro whole cut hWithin
  exact .inl (hLockstep whole cut hWithin)

/- If no line is printed, it does not matter which are. -/
theorem of_silent
    {x : Execution Sink α}
    (hSilent :
      StopsWhenFull capacity depth (fun _ _ => False) x) :
    StopsWhenFull capacity depth Prints x :=
  hSilent.mono fun _ _ => False.elim

theorem pure
    (a : α) :
    StopsWhenFull capacity depth (fun _ _ => False)
      (pure a : Execution Sink α) :=
  of_lockstep (kept_extends.pure a) (Lockstep.pure a)

theorem evaluate
    (e : Expr) :
    StopsWhenFull capacity depth (fun _ _ => False)
      (Execution.evaluate e) := by
  apply of_lockstep (kept_extends.evaluate e)
  exact lockstep_evaluate (e.lockstep_eval_self depth)

/- There is always a frame to declare a name in. -/
theorem declare
    (name : Token)
    (value : Value) :
    StopsWhenFull capacity (depth + 1) (fun _ _ => False)
      (Execution.declare name value) := by
  apply of_lockstep (kept_extends.declare name value)
  apply lockstep_declare
  rintro scopes _ ⟨rfl, hLength⟩
  have hScopes : scopes ≠ [] := by
    rintro rfl
    cases hLength
  refine ⟨rfl, ?_⟩
  rw [Scopes.length_declare hScopes, hLength]

theorem flush
    (blamed : Token) :
    StopsWhenFull capacity depth (fun _ _ => False)
      (useSink blamed Writer.flush) := by
  apply of_lockstep
  · intro machine
    unfold stateAfter
    rcases useSink_flush_cases blamed machine with
      hOk | hError
    · rw [hOk]
      exact .refl machine.sink
    · rw [hError]
      exact .refl machine.sink
  · exact lockstep_useSink blamed (Sink.lockstep_flush _)

/- A line that does not fit is where an execution stops. -/
theorem printLine
    (keyword : Token)
    (text : String) :
    StopsWhenFull capacity depth
      (fun machine line => line = ⟨keyword, text, machine⟩)
      (Execution.printLine keyword text) := by
  refine ⟨kept_extends.printLine keyword text, ?_⟩
  intro whole cut hWithin
  let line : Printing := ⟨keyword, text, whole⟩
  by_cases hRoom : line.after.size ≤ capacity
  · have hSame := hWithin.sink.sameResult_write hRoom
    exact
      .inl (sameResult_useSink keyword hWithin.scopes hSame)
  · have hAfter := Nat.lt_of_not_le hRoom
    have hWhole := hWithin.sink.write_eq_ok line.bytes
    have hCut := hWithin.sink.write_eq_full hAfter
    right
    refine
      ⟨line,
        ⟨cut.scopes,
          { cut.sink with
            written := line.after.extract 0 capacity }⟩,
        rfl, ?_, ?_⟩
    · exact useSink_eq_of_error keyword hCut
    · have hSame := hWithin.scopes.same
      refine
        ⟨hWithin.sink.fits, hAfter, rfl, ?_, ?_, .empty, ?_⟩
      · exact hSame ▸ List.suffix_rfl
      · exact hSame ▸ hWithin.scopes.length
      · have hPrinted :
            Execution.printLine keyword text whole = _ :=
          useSink_eq_of_ok keyword hWhole
        simp only [stateAfter, hPrinted]
        exact ByteArray.append_empty.symm

/- What comes later is compared if the first part fits. -/
theorem bind
    {x : Execution Sink α}
    {k : α → Execution Sink β}
    {First : Machine Sink → Printing → Prop}
    {Rest : α → Machine Sink → Printing → Prop}
    (hFirst : StopsWhenFull capacity depth First x)
    (hRest :
      ∀ a, StopsWhenFull capacity depth (Rest a) (k a)) :
    StopsWhenFull capacity depth
      (fun machine line =>
        First machine line ∨
          ∃ a between,
            x machine = .ok a between ∧ Rest a between line)
      (x >>= k) := by
  refine
    ⟨kept_extends.bind hFirst.grows fun a => (hRest a).grows,
      ?_⟩
  intro whole cut hWithin
  rcases hFirst.stops whole cut hWithin with
    hSame | ⟨line, left, hPrints, hError, hStopped⟩
  · generalize hWhole : x whole = first,
      hCut : x cut = second at hSame
    cases hSame with
    | ok hBetween =>
        rw [bind_eq_of_ok hCut, bind_eq_of_ok hWhole,
          stateAfter_congr (bind_eq_of_ok hWhole)]
        rcases (hRest _).stops _ _ hBetween with
          hSame | ⟨line, left, hPrints, hError, hStopped⟩
        · exact .inl hSame
        · exact
            .inr
              ⟨line, left, .inr ⟨_, _, rfl, hPrints⟩,
                hError, hStopped⟩
    | error hBetween =>
        rw [bind_eq_of_error hCut, bind_eq_of_error hWhole]
        exact .inl (.error hBetween)
  · have hLater :=
      kept_extends.rest x (fun a => (hRest a).grows) whole
    exact
      .inr
        ⟨line, left, .inl hPrints, bind_eq_of_error hError,
          hStopped.mono hLater⟩

/- Nothing is printed to find a value. -/
theorem evaluate_bind
    {e : Expr}
    {k : Value → Execution Sink β}
    {Rest : Value → Machine Sink → Printing → Prop}
    (hRest :
      ∀ value,
        StopsWhenFull capacity depth (Rest value) (k value))
    (hPrints :
      ∀ machine value between line,
        Execution.evaluate e machine = .ok value between →
        Rest value between line →
        Prints machine line) :
    StopsWhenFull capacity depth Prints
      (Execution.evaluate e >>= k) := by
  apply ((evaluate e).bind hRest).mono
  rintro machine line (hNone | hSome)
  · exact hNone.elim
  · rcases hSome with ⟨value, between, hValue, hLine⟩
    exact hPrints machine value between line hValue hLine

theorem map
    {x : Execution Sink α}
    (hFirst :
      StopsWhenFull capacity depth (fun _ _ => False) x)
    (g : α → β) :
    StopsWhenFull capacity depth (fun _ _ => False)
      (g <$> x) := by
  rw [map_eq_pure_bind]
  apply (hFirst.bind fun a => pure (g a)).mono
  rintro machine line (hNone | ⟨_, _, _, hNone⟩)
  · exact hNone
  · exact hNone

theorem ite
    {c : Prop}
    [Decidable c]
    {x y : Execution Sink α}
    (hThen : StopsWhenFull capacity depth Prints x)
    (hElse : StopsWhenFull capacity depth Others y) :
    StopsWhenFull capacity depth
      (fun machine line =>
        if c then Prints machine line
        else Others machine line)
      (if c then x else y) := by
  by_cases hTest : c
  · simpa only [if_pos hTest] using hThen
  · simpa only [if_neg hTest] using hElse

/- A new scope is left where the execution stops. -/
theorem inNewScope
    {x : Execution Sink Unit}
    (hAction : StopsWhenFull capacity (depth + 1) Prints x) :
    StopsWhenFull capacity depth
      (fun machine line =>
        Prints { machine with scopes := machine.scopes.enter }
          line)
      (Execution.inNewScope x) := by
  refine ⟨kept_extends.inNewScope x hAction.grows, ?_⟩
  intro whole cut hWithin
  have hEntered :
      Within capacity (depth + 1)
        { whole with scopes := whole.scopes.enter }
        { cut with scopes := cut.scopes.enter } := by
    refine ⟨hWithin.sink, ?_, ?_⟩
    · rw [hWithin.scopes.same]
    · exact congrArg Nat.succ hWithin.scopes.length
  rcases hAction.stops _ _ hEntered with
    hSame | ⟨line, left, hPrints, hError, hStopped⟩
  · left
    apply sameResult_inNewScope _ hSame
    rintro scopes _ ⟨rfl, hLength⟩
    exact ⟨rfl, Scopes.length_leave hLength⟩
  · right
    refine
      ⟨line, { left with scopes := left.scopes.leave },
        hPrints, ?_, ?_⟩
    · simp only [Execution.inNewScope, hError]
    · rw [sink_stateAfter_inNewScope]
      have hScopes :=
        (List.tail_suffix left.scopes).trans hStopped.scopes
      refine { hStopped with scopes := hScopes, depth := ?_ }
      exact Scopes.length_leave hStopped.depth

/-
  A loop prints the lines of its turns.  Which lines these
  are is given by what a turn and the turns after it print.
-/
theorem repeatWhile
    {condition : Execution Sink Bool}
    {body : Execution Sink Unit}
    {Body : Machine Sink → Printing → Prop}
    (hCondition :
      StopsWhenFull capacity depth (fun _ _ => False)
        condition)
    (hBody : StopsWhenFull capacity depth Body body)
    (hTurn :
      ∀ machine between line,
        condition machine = .ok true between →
        Body between line →
        Prints machine line)
    (hLater :
      ∀ machine between later line,
        condition machine = .ok true between →
        body between = .ok () later →
        Prints later line →
        Prints machine line)
    (allowance : Nat) :
    StopsWhenFull capacity depth Prints
      (Execution.repeatWhile allowance condition body) := by
  induction allowance with
  | zero =>
      apply of_silent
      apply of_lockstep _ (Lockstep.throw _)
      intro machine
      exact .refl machine.sink
  | succ allowance ih =>
      have hTurns := hBody.bind fun _ => ih
      apply
        StopsWhenFull.mono
          (hCondition.bind fun _ => hTurns.ite (pure ()))
      rintro machine line (hNone | hSome)
      · exact hNone.elim
      · rcases hSome with ⟨again, between, hTested, hLine⟩
        split at hLine
        case isFalse => exact hLine.elim
        case isTrue hAgain =>
          subst hAgain
          rcases hLine with hFirst | ⟨_, later, hDone, hRest⟩
          · exact hTurn machine between line hTested hFirst
          · exact
              hLater machine between later line hTested hDone
                hRest

end StopsWhenFull

end Execution

end OcScript

------------------------------------------------------------
-- Statements with a Limited Sink
------------------------------------------------------------

namespace OcScript

namespace Stmt

open Execution (Ends StopsWhenFull)

/- A statement that reached its end once ends so. -/
theorem ends_of_exec_eq_ok
    {s : Stmt}
    {allowance : Nat}
    {machine after : Machine Sink}
    (hDone : s.exec allowance machine = .ok () after) :
    Ends (s.exec ·) machine ⟨none, after⟩ :=
  (steady_exec s).ends_of_eq hDone

theorem stopsWhenFull_execAll_of_forall
    {capacity depth allowance : Nat}
    {body : List Stmt}
    (hMembers :
      ∀ s ∈ body,
        StopsWhenFull capacity (depth + 1) (Prints s)
          (s.exec allowance)) :
    StopsWhenFull capacity (depth + 1) (PrintsAll body)
      (execAll allowance body) := by
  induction body with
  | nil =>
      exact .of_silent (.pure ())
  | cons s rest ih =>
      rw [List.forall_mem_cons] at hMembers
      apply
        StopsWhenFull.mono
          (hMembers.1.bind fun _ => ih hMembers.2)
      rintro machine line (hFirst | hSome)
      · exact .head hFirst
      · rcases hSome with ⟨_, between, hDone, hRest⟩
        exact .tail (ends_of_exec_eq_ok hDone) hRest

/- A statement stops at the first line that does not fit. -/
theorem stopsWhenFull_exec
    (capacity depth allowance : Nat)
    (s : Stmt) :
    StopsWhenFull capacity (depth + 1) (Prints s)
      (s.exec allowance) := by
  induction s generalizing depth with
  | expression value =>
      apply StopsWhenFull.evaluate_bind fun _ => .pure ()
      intro machine value between line _ hNone
      exact hNone.elim
  | print keyword value =>
      apply
        StopsWhenFull.evaluate_bind fun printed =>
          .printLine keyword printed.text
      rintro machine printed between _ hValue rfl
      exact .print hValue
  | declare name initial =>
      apply StopsWhenFull.of_silent
      cases initial with
      | none =>
          exact .declare name .null
      | some initial =>
          apply
            StopsWhenFull.evaluate_bind fun value =>
              .declare name value
          intro machine value between line _ hNone
          exact hNone
  | block body ih =>
      apply StopsWhenFull.mono
      · apply StopsWhenFull.inNewScope
        apply stopsWhenFull_execAll_of_forall
        intro s hMem
        exact ih s hMem (depth + 1)
      · intro machine line hBody
        exact .block hBody
  | ifThen condition thenBranch ih =>
      apply
        StopsWhenFull.evaluate_bind fun _ =>
          (ih depth).ite (.pure ())
      intro machine tested between line hTested hLine
      split at hLine
      case isTrue hTruthy =>
        exact .ifThen hTested hTruthy hLine
      case isFalse =>
        exact hLine.elim
  | ifElse condition thenBranch elseBranch thenIH elseIH =>
      apply
        StopsWhenFull.evaluate_bind fun _ =>
          (thenIH depth).ite (elseIH depth)
      intro machine tested between line hTested hLine
      split at hLine
      case isTrue hTruthy =>
        exact .thenOfIfElse hTested hTruthy hLine
      case isFalse hFalsy =>
        exact
          .elseOfIfElse hTested
            (Bool.of_not_eq_true hFalsy) hLine
  | whileDo condition body ih =>
      apply
        StopsWhenFull.repeatWhile
          ((StopsWhenFull.evaluate condition).map Value.truthy)
          (ih depth)
      · intro machine between line hAgain hLine
        rcases exists_of_map_eq_ok hAgain with
          ⟨tested, hTested, hTruthy⟩
        exact .firstTurn hTested hTruthy hLine
      · intro machine between later line hAgain hDone hLine
        rcases exists_of_map_eq_ok hAgain with
          ⟨tested, hTested, hTruthy⟩
        exact
          .laterTurn hTested hTruthy
            (ends_of_exec_eq_ok hDone) hLine
  | skipped =>
      exact .of_silent (.pure ())

theorem stopsWhenFull_execAll
    (capacity depth allowance : Nat)
    (body : List Stmt) :
    StopsWhenFull capacity (depth + 1) (PrintsAll body)
      (execAll allowance body) := by
  apply stopsWhenFull_execAll_of_forall
  intro s _
  exact stopsWhenFull_exec capacity depth allowance s

end Stmt

end OcScript

------------------------------------------------------------
-- Runs with a Limited Sink
------------------------------------------------------------

namespace OcScript

namespace Execution

open Machine (Within)

theorem stopsWhenFull_run
    (capacity depth allowance : Nat)
    (program : Program) :
    StopsWhenFull capacity (depth + 1)
      (Stmt.PrintsAll program) (run allowance program) := by
  have hProgram :=
    Stmt.stopsWhenFull_execAll capacity depth allowance
      program
  apply
    StopsWhenFull.mono
      (hProgram.bind fun _ => .flush (Token.atEnd 0))
  rintro machine line (hLine | ⟨_, _, _, hNone⟩)
  · exact hLine
  · exact hNone.elim

/- A sink that was found full is not flushed. -/
theorem execAll_eq_of_run_eq_full
    {allowance : Nat}
    {program : Program}
    {line : Printing}
    {machine left : Machine Sink}
    (hFull :
      run allowance program machine =
        .error (fullAt line) left) :
    Stmt.execAll allowance program machine =
      .error (fullAt line) left := by
  cases hResult : Stmt.execAll allowance program machine with
  | error stop after =>
      rw [run, bind_eq_of_error hResult] at hFull
      exact hFull
  | ok _ after =>
      rw [run, bind_eq_of_ok hResult] at hFull
      rcases useSink_flush_cases (Token.atEnd 0) after with
        hOk | hError
      · rw [hOk] at hFull
        cases hFull
      · rw [hError] at hFull
        simp [fullAt] at hFull

/- The ending of an execution that does the same. -/
theorem Ending.exists_of_sameResult
    {R : Machine Sink → Machine Sink → Prop}
    {ending : Ending Sink}
    {result : EStateM.Result Stop (Machine Sink) Unit}
    (hSame : SameResult R ending.result result) :
    ∃ after,
      result = (⟨ending.failure?, after⟩ : Ending Sink).result ∧
        R ending.machine after := by
  rcases ending with ⟨_ | error, machine⟩
  · cases hSame with
    | ok hMachines =>
        exact ⟨_, rfl, hMachines⟩
  · cases hSame with
    | error hMachines =>
        exact ⟨_, rfl, hMachines⟩

/-
  A limited sink gets exactly the first bytes.  If a run
  ends, then with a capacity it ends too, having written as
  many of the first bytes as the capacity allows.  If that
  is all of them, it ends in the same way and with the same
  bindings.  If not, the full sink is blamed on the keyword
  of the line that the first byte too many is part of.  The
  global bindings are those that the run without a capacity
  has just before it writes that line, and the run ends
  before it comes to the flush.
-/
theorem limited_run_writes_first_bytes
    (program : Program)
    (globals : Frame)
    (flushes : Bool)
    (capacity : Nat)
    (ending : Ending Sink)
    (hEnds :
      Ends (run · program)
        ⟨[globals], ⟨.empty, none, flushes⟩⟩ ending) :
    let start : Machine Sink :=
      ⟨[globals], ⟨.empty, none, flushes⟩⟩
    let limitedStart : Machine Sink :=
      ⟨[globals], ⟨.empty, some capacity, flushes⟩⟩
    let output := ending.machine.sink.written
    ∃ limited : Ending Sink,
      Ends (run · program) limitedStart limited ∧
        limited.machine.sink.written =
          output.extract 0 capacity ∧
        (output.size ≤ capacity →
          limited.failure? = ending.failure? ∧
            limited.machine.scopes =
              ending.machine.scopes) ∧
        (capacity < output.size →
          ∃ line more,
            Stmt.PrintsAll program start line ∧
              line.before.size ≤ capacity ∧
              capacity < line.after.size ∧
              output = line.after ++ more ∧
              limited.failure? =
                some ⟨line.keyword, .sink .full⟩ ∧
              limited.machine.scopes =
                [line.machine.scopes.globals] ∧
              Ends (Stmt.execAll · program) limitedStart
                limited) := by
  intro start limitedStart output
  rcases hEnds with ⟨enough, hEnds⟩
  have hWhole : run enough program start = ending.result :=
    hEnds enough (Nat.le_refl enough)
  have hWithin : Within capacity 1 start limitedStart :=
    ⟨⟨rfl, rfl, Nat.zero_le capacity⟩, rfl, rfl⟩
  rcases
      (stopsWhenFull_run capacity 0 enough program).stops
        start limitedStart hWithin with
    hSame | ⟨line, left, hPrints, hError, hStopped⟩
  · rw [hWhole] at hSame
    rcases Ending.exists_of_sameResult hSame with
      ⟨after, hResult, hSinks, hScopes⟩
    refine
      ⟨⟨ending.failure?, after⟩,
        (steady_run program).ends_of_eq hResult, ?_, ?_, ?_⟩
    · rw [hSinks.limited]
      exact (extract_zero_of_size_le hSinks.fits).symm
    · intro _
      exact ⟨rfl, hScopes.same.symm⟩
    · intro hExceeds
      exact absurd hSinks.fits (Nat.not_le_of_lt hExceeds)
  · rw [Ending.stateAfter_eq hWhole] at hStopped
    obtain ⟨more, hOutput⟩ :
        ∃ more, output = line.after ++ more :=
      hStopped.output
    refine
      ⟨⟨some ⟨line.keyword, .sink .full⟩, left⟩,
        (steady_run program).ends_of_eq hError, ?_, ?_, ?_⟩
    · rw [hStopped.kept, hOutput,
        extract_zero_append (Nat.le_of_lt hStopped.after)]
    · intro hFits
      have hSize := congrArg ByteArray.size hOutput
      have hAfter := hStopped.after
      rw [ByteArray.size_append] at hSize
      omega
    · intro _
      have hProgram := execAll_eq_of_run_eq_full hError
      exact
        ⟨line, more, hPrints, hStopped.before, hStopped.after,
          hOutput, rfl,
          Scopes.eq_globals_of_suffix hStopped.scopes
            hStopped.depth,
          (Stmt.steady_execAll program).ends_of_eq hProgram⟩

/-
  A program that prints `a`, then a longer `a` from within a
  block, and then the longer `a` again.
-/
def lengthening : Program :=
  let a : Token := ⟨.identifier, "a", 1⟩
  let plus : Token := ⟨.symbol .plus, "+", 2⟩
  let est (line : Nat) : Token :=
    ⟨.keyword .printWord, "est", line⟩
  let longer :=
    Expr.binary (.var a) plus (.literal (.str "z"))
  [.print (est 1) (.var a),
    .block [.print (est 2) (.assign a longer)],
    .print (est 3) (.var a)]

/- The sink is full in the middle of the second line. -/
theorem limited_run_writes_first_bytes_lengthening :
    let globals := (∅ : Frame).insert "a" (.str "xy")
    let start : Machine Sink :=
      ⟨[globals], ⟨.empty, none, true⟩⟩
    let limitedStart : Machine Sink :=
      ⟨[globals], ⟨.empty, some 5, true⟩⟩
    ∃ ending limited line,
      Ends (run · lengthening) start ending ∧
        ending.machine.sink.written =
          "xy\nxyz\nxyz\n".toUTF8 ∧
        Ends (run · lengthening) limitedStart limited ∧
        limited.machine.sink.written = "xy\nxy".toUTF8 ∧
        Stmt.PrintsAll lengthening start line ∧
        limited.failure? =
          some ⟨line.keyword, .sink .full⟩ := by
  intro globals start limitedStart
  have hFinal : IsFinal (run 0 lengthening start) := by
    decide +kernel
  obtain ⟨ending, hResult⟩ :=
    Ending.exists_of_isFinal hFinal
  have hEnds : Ends (run · lengthening) start ending :=
    (steady_run lengthening).ends_of_eq hResult.symm
  have hOutput :
      ending.machine.sink.written =
        "xy\nxyz\nxyz\n".toUTF8 := by
    rw [← Ending.stateAfter_eq hResult.symm]
    decide +kernel
  rcases
      limited_run_writes_first_bytes lengthening globals true
        5 ending hEnds with
    ⟨limited, hLimited, hWritten, _, hFull⟩
  rw [hOutput] at hWritten hFull
  rcases hFull (by decide +kernel) with
    ⟨line, _, hPrints, _, _, _, hFailure, _⟩
  refine
    ⟨ending, limited, line, hEnds, hOutput, hLimited, ?_,
      hPrints, hFailure⟩
  rw [hWritten]
  decide +kernel

end Execution

end OcScript
