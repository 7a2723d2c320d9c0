import OcScript.Proofs.Exec.Keeps
import OcScript.Proofs.Exec.Relabel
import OcScript.Proofs.Parse.Join
import OcScript.Run

/-
  This file proves that a session and a script agree: to run
  sources one after another is to run the clean ones as one
  source, joined with newlines.

  Sources with diagnostics do nothing in a session.  The
  others are read in the script as they are read alone, and
  each goes on from the machine that those before it left.
  An error in the script differs from the error in the
  session by the lines that stand before its source.

  Key definitions include:
    * `OcScript.Run.Ends`
    * `OcScript.Run.joined`
    * `OcScript.Run.lead`
    * `OcScript.Run.outputs`
    * `OcScript.Run.machineAfter`

  Key theorems include:
    * `OcScript.Run.ends_append_of_ok`
    * `OcScript.Run.ends_append_of_stop`
    * `OcScript.Run.script_ends_ok`
    * `OcScript.Run.script_ends_early`
    * `OcScript.Run.script_agrees_with_session`
-/

------------------------------------------------------------
-- Programs in Order
------------------------------------------------------------

namespace OcScript

variable {W : Type}

namespace Stmt

variable [Writer W]

/- Statements after others are executed after them. -/
theorem execAll_append
    (allowance : Nat)
    (front back : List Stmt) :
    (execAll allowance (front ++ back) :
        Execution W Unit) =
      execAll allowance front >>= fun _ =>
        execAll allowance back := by
  induction front with
  | nil =>
      rfl
  | cons s rest ih =>
      simp only [List.cons_append, execAll, ih, bind_assoc]

/-
  Relabelled statements after others that reached their end
  are executed from there, and stop at changed tokens.
-/
theorem execAll_append_of_ok
    {f : Token → Token}
    (hKeeps : Token.KeepsText f)
    {allowance : Nat}
    {front : List Stmt}
    {machine between : Machine W}
    (hFront :
      execAll allowance front machine = .ok () between)
    (back : List Stmt) :
    execAll allowance (front ++ mapTokensAll f back)
        machine =
      EStateM.adaptExcept (Stop.relabel f)
        (execAll allowance back) between := by
  have hBack :
      (execAll allowance (mapTokensAll f back) :
          Execution W Unit) =
        EStateM.adaptExcept (Stop.relabel f)
          (execAll allowance back) := by
    apply execAll_mapTokensAll hKeeps.kind
    intro t _
    exact hKeeps.lexeme t
  rw [execAll_append, hBack]
  simp only [bind, EStateM.bind, hFront]

/- Statements after others that stopped do nothing. -/
theorem execAll_append_of_error
    {allowance : Nat}
    {front : List Stmt}
    {machine after : Machine W}
    {stop : Stop}
    (hFront :
      execAll allowance front machine = .error stop after)
    (back : List Stmt) :
    execAll allowance (front ++ back) machine =
      execAll allowance front machine := by
  simp only [execAll_append, bind, EStateM.bind, hFront]

end Stmt

namespace Execution

/- On a sink that flushes, a run is just its statements. -/
theorem run_eq_execAll
    {machine : Machine Sink}
    (hFlushes : machine.sink.flushes = true)
    (allowance : Nat)
    (program : Program) :
    run allowance program machine =
      Stmt.execAll allowance program machine := by
  have hExtends :=
    kept_extends.execAll allowance program machine
  simp only [stateAfter] at hExtends
  simp only [run, bind, EStateM.bind]
  cases hResult : Stmt.execAll allowance program machine with
  | ok _ after =>
      rw [hResult] at hExtends
      have hAfter : after.sink.flushes = true :=
        hExtends.flushes.trans hFlushes
      simp only [useSink, Sink.flush_eq, Sink.flush, hAfter,
        if_true]
  | error stop after =>
      rfl

end Execution

namespace Outcome

/- The outcome that tells how an execution ended. -/
def ofResult :
    EStateM.Result Stop (Machine W) Unit → Outcome
| .ok _ _ => .ok
| .error (.failure error) _ => .failed error
| .error .outOfAllowance _ => .unfinished

/- Change the token of an error. -/
def relabel
    (f : Token → Token) :
    Outcome → Outcome
| failed error => failed (error.relabel f)
| outcome => outcome

/- An outcome tells whether the execution ended or stopped. -/
theorem ofResult_eq_ok_iff
    {result : EStateM.Result Stop (Machine W) Unit} :
    ofResult result = .ok ↔
      ∃ after, result = .ok () after := by
  cases result with
  | ok _ after =>
      exact ⟨fun _ => ⟨after, rfl⟩, fun _ => rfl⟩
  | error stop after =>
      constructor
      · intro hOk
        cases stop with
        | failure error =>
            cases hOk
        | outOfAllowance =>
            cases hOk
      · rintro ⟨_, hResult⟩
        cases hResult

/- An execution that was started was not turned away. -/
theorem isRejected_ofResult
    (result : EStateM.Result Stop (Machine W) Unit) :
    (ofResult result).isRejected = false := by
  cases result with
  | ok _ after =>
      rfl
  | error stop after =>
      cases stop with
      | failure error =>
          rfl
      | outOfAllowance =>
          rfl

/- Changing the errors of an execution. -/
theorem ofResult_adaptExcept
    (f : Token → Token)
    (x : Execution W Unit)
    (machine : Machine W) :
    ofResult
        (EStateM.adaptExcept (Stop.relabel f) x machine) =
      (ofResult (x machine)).relabel f := by
  unfold EStateM.adaptExcept
  cases x machine with
  | ok _ after =>
      rfl
  | error stop after =>
      cases stop with
      | failure error =>
          rfl
      | outOfAllowance =>
          rfl

end Outcome

namespace Run

/- How a run ended, what it printed, and what it left. -/
structure Ends
    (run : Run W)
    (outcome : Outcome)
    (output : ByteArray)
    (machine : Machine W) :
    Prop where
  outcome : run.outcome = outcome
  output : run.output = output
  machine : run.machine = machine

/- The run of a program, told by its statements. -/
theorem ends_ofProgram
    {machine : Machine Sink}
    (hFlushes : machine.sink.flushes = true)
    (allowance : Nat)
    (program : Program) :
    let x := Stmt.execAll allowance program
    Ends (ofProgram allowance program machine)
      (.ofResult (x machine))
      (writtenSince machine.sink (stateAfter x machine).sink)
      (stateAfter x machine) := by
  simp only [ofProgram, stateAfter,
    Execution.run_eq_execAll hFlushes]
  cases Stmt.execAll allowance program machine with
  | ok _ after =>
      exact ⟨rfl, rfl, rfl⟩
  | error stop after =>
      cases stop with
      | failure error =>
          exact ⟨rfl, rfl, rfl⟩
      | outOfAllowance =>
          exact ⟨rfl, rfl, rfl⟩

/- A run leaves a sink that extends the one it found. -/
theorem extends_ofProgram
    {machine : Machine Sink}
    (hFlushes : machine.sink.flushes = true)
    (allowance : Nat)
    (program : Program) :
    machine.sink.Extends
      (ofProgram allowance program machine).machine.sink := by
  rw [(ends_ofProgram hFlushes allowance program).machine]
  exact
    Execution.kept_extends.execAll allowance program machine

/- What a run printed is what its sink has got since. -/
theorem output_ofProgram
    {machine : Machine Sink}
    (hFlushes : machine.sink.flushes = true)
    (allowance : Nat)
    (program : Program) :
    (ofProgram allowance program machine).output =
      writtenSince machine.sink
        (ofProgram allowance program machine).machine.sink := by
  have hRun := ends_ofProgram hFlushes allowance program
  rw [hRun.output, hRun.machine]

/-
  If the first program reaches its end, the second one goes
  on from there.
-/
theorem ends_append_of_ok
    {f : Token → Token}
    (hKeeps : Token.KeepsText f)
    {allowance : Nat}
    {front : Program}
    {machine : Machine Sink}
    (hFlushes : machine.sink.flushes = true)
    (hOk :
      (ofProgram allowance front machine).outcome = .ok)
    (back : Program) :
    let first := ofProgram allowance front machine
    let later := ofProgram allowance back first.machine
    Ends
      (ofProgram allowance
        (front ++ Stmt.mapTokensAll f back) machine)
      (later.outcome.relabel f)
      (first.output ++ later.output)
      later.machine := by
  intro first later
  have hExtends :=
    extends_ofProgram hFlushes allowance front
  have hBetween : first.machine.sink.flushes = true :=
    hExtends.flushes.trans hFlushes
  have hFirst : Ends first _ _ _ :=
    ends_ofProgram hFlushes allowance front
  have hLater : Ends later _ _ _ :=
    ends_ofProgram hBetween allowance back
  have hWhole :=
    ends_ofProgram hFlushes allowance
      (front ++ Stmt.mapTokensAll f back)
  have hFront :
      Stmt.execAll allowance front machine =
        .ok () first.machine := by
    rcases Outcome.ofResult_eq_ok_iff.mp
        (hFirst.outcome.symm.trans hOk) with
      ⟨between, hResult⟩
    rw [hFirst.machine, stateAfter, hResult]
  have hExec :=
    Stmt.execAll_append_of_ok hKeeps hFront back
  have hMachine :
      (ofProgram allowance
        (front ++ Stmt.mapTokensAll f back)
          machine).machine = later.machine := by
    rw [hWhole.machine, hLater.machine,
      stateAfter_congr hExec, stateAfter_adaptExcept]
  refine ⟨?_, ?_, hMachine⟩
  · rw [hWhole.outcome, hLater.outcome, hExec,
      Outcome.ofResult_adaptExcept]
  · rw [output_ofProgram hFlushes, hMachine,
      output_ofProgram hFlushes, output_ofProgram hBetween]
    exact
      (writtenSince_append hExtends
        (extends_ofProgram hBetween allowance back)).symm

/- If the first program stops, the second one never runs. -/
theorem ends_append_of_stop
    {allowance : Nat}
    {front : Program}
    {machine : Machine Sink}
    (hFlushes : machine.sink.flushes = true)
    (hStop :
      (ofProgram allowance front machine).outcome ≠ .ok)
    (back : Program) :
    let first := ofProgram allowance front machine
    Ends (ofProgram allowance (front ++ back) machine)
      first.outcome first.output first.machine := by
  intro first
  have hFirst : Ends first _ _ _ :=
    ends_ofProgram hFlushes allowance front
  have hWhole :=
    ends_ofProgram hFlushes allowance (front ++ back)
  have hExec :
      Stmt.execAll allowance (front ++ back) machine =
        Stmt.execAll allowance front machine := by
    cases hResult :
        Stmt.execAll allowance front machine with
    | ok _ after =>
        rw [hResult] at hFirst
        exact absurd hFirst.outcome hStop
    | error stop after =>
        rw [Stmt.execAll_append_of_error hResult, hResult]
  have hLeft := stateAfter_congr hExec
  refine ⟨?_, ?_, ?_⟩
  · rw [hWhole.outcome, hFirst.outcome, hExec]
  · rw [hWhole.output, hFirst.output, hLeft]
  · rw [hWhole.machine, hFirst.machine, hLeft]

end Run

end OcScript

------------------------------------------------------------
-- Joined Sources
------------------------------------------------------------

namespace OcScript

namespace Run

/- The source has no diagnostics. -/
def isClean
    (table : KeywordTable)
    (source : String) :
    Bool :=
  (check table source).diagnostics.isEmpty

/- The script of the clean sources, joined with newlines. -/
def joined
    (table : KeywordTable)
    (sources : List String) :
    String :=
  "\n".intercalate (sources.filter (isClean table))

/-
  What stands in the script before a source that comes after
  the given ones.
-/
def lead
    (table : KeywordTable)
    (before : List String) :
    String :=
  String.join
    ((before.filter (isClean table)).map (· ++ "\n"))

variable {W : Type}
variable [Writer W]
variable {table : KeywordTable}
variable {source : String}
variable {rest : List String}

theorem isClean_iff :
    isClean table source = true ↔
      (check table source).diagnostics = [] :=
  List.isEmpty_iff

theorem joined_cons_of_not_clean
    (hDirty : isClean table source = false) :
    joined table (source :: rest) = joined table rest := by
  unfold joined
  rw [List.filter_cons_of_neg (by rw [hDirty]; decide)]

/- A clean source stands alone or before the others. -/
theorem joined_cons_of_clean
    (hClean : isClean table source = true)
    (rest : List String) :
    joined table (source :: rest) = source ∧
        joined table rest = "" ∨
      joined table (source :: rest) =
        source ++ "\n" ++ joined table rest := by
  unfold joined
  rw [List.filter_cons_of_pos hClean]
  by_cases hRest : rest.filter (isClean table) = []
  · left
    rw [hRest]
    exact
      ⟨String.intercalate_singleton,
        String.intercalate_nil⟩
  · right
    exact String.intercalate_cons_of_ne_nil hRest

theorem lead_cons_of_not_clean
    (hDirty : isClean table source = false) :
    lead table (source :: rest) = lead table rest := by
  unfold lead
  rw [List.filter_cons_of_neg (by rw [hDirty]; decide)]

/- The newlines that a clean source adds to a lead. -/
theorem count_lead_cons_of_clean
    (hClean : isClean table source = true) :
    (lead table (source :: rest)).toList.count '\n' =
      (lead table rest).toList.count '\n' +
        (source.toList.count '\n' + 1) := by
  unfold lead
  rw [List.filter_cons_of_pos hClean, List.map_cons,
    String.join_cons, toList_append_newline,
    List.count_append, List.count_cons_self]
  omega

/- In the script, a clean source stands after its lead. -/
theorem joined_eq_lead_append
    (hClean : isClean table source = true)
    (before after : List String) :
    ∃ following,
      joined table (before ++ source :: after) =
        lead table before ++ source ++ following := by
  unfold joined lead
  rw [List.filter_append, List.filter_cons_of_pos hClean]
  induction before.filter (isClean table) with
  | nil =>
      cases after.filter (isClean table) with
      | nil =>
          refine ⟨"", ?_⟩
          simp
      | cons next others =>
          refine ⟨"\n" ++ "\n".intercalate (next :: others), ?_⟩
          simp [String.append_assoc]
  | cons first others ih =>
      rcases ih with ⟨following, hFollowing⟩
      refine ⟨following, ?_⟩
      rw [List.cons_append,
        String.intercalate_cons_of_ne_nil (by simp),
        hFollowing, List.map_cons, String.join_cons]
      simp only [String.append_assoc]

/- A script of clean sources is clean. -/
theorem isClean_joined
    (table : KeywordTable)
    (sources : List String) :
    isClean table (joined table sources) = true := by
  induction sources with
  | nil =>
      rw [isClean_iff]
      exact congrArg Checked.diagnostics (check_empty table)
  | cons source rest ih =>
      by_cases hClean : isClean table source = true
      · rcases joined_cons_of_clean hClean rest with
          ⟨hAlone, _⟩ | hBefore
        · rw [hAlone]
          exact hClean
        · rw [isClean_iff] at hClean ih ⊢
          rw [hBefore, check_append_newline hClean ih]
      · rw [Bool.not_eq_true] at hClean
        rw [joined_cons_of_not_clean hClean]
        exact ih

/- The run of a clean source is that of its program. -/
theorem ofSource_of_clean
    (hClean : isClean table source = true)
    (allowance : Nat)
    (machine : Machine W) :
    ofSource table allowance source machine =
      ofProgram allowance (check table source).program
        machine := by
  unfold ofSource
  exact if_pos hClean

/- A source with diagnostics leaves everything as it was. -/
theorem ends_of_not_clean
    (hDirty : isClean table source = false)
    (allowance : Nat)
    (machine : Machine W) :
    Ends (ofSource table allowance source machine)
      (.rejected (check table source).diagnostics) .empty
      machine := by
  have hChecked :
      ¬ (check table source).diagnostics.isEmpty = true :=
    Bool.not_eq_true _ ▸ hDirty
  unfold ofSource
  rw [if_neg hChecked]
  exact ⟨rfl, rfl, rfl⟩

/- The empty source does nothing. -/
theorem ends_empty
    {machine : Machine Sink}
    (hFlushes : machine.sink.flushes = true)
    (table : KeywordTable)
    (allowance : Nat) :
    Ends (ofSource table allowance "" machine) .ok .empty
      machine := by
  have hClean : isClean table "" = true :=
    isClean_joined table []
  rw [ofSource_of_clean hClean, check_empty]
  have hRun := ends_ofProgram hFlushes allowance []
  refine ⟨hRun.outcome, ?_, hRun.machine⟩
  rw [hRun.output]
  exact writtenSince_self machine.sink

/- The sink that a source leaves can still be flushed. -/
theorem flushes_ofSource
    {machine : Machine Sink}
    (hFlushes : machine.sink.flushes = true)
    (table : KeywordTable)
    (allowance : Nat)
    (source : String) :
    (ofSource table allowance source
      machine).machine.sink.flushes = true := by
  by_cases hClean : isClean table source = true
  · rw [ofSource_of_clean hClean]
    have hExtends :=
      extends_ofProgram hFlushes allowance
        (check table source).program
    rw [hExtends.flushes]
    exact hFlushes
  · rw [Bool.not_eq_true] at hClean
    rw [(ends_of_not_clean hClean allowance machine).machine]
    exact hFlushes

end Run

end OcScript

------------------------------------------------------------
-- The First Source of a Script
------------------------------------------------------------

namespace OcScript

namespace Outcome

/- The outcome as it is found `n` lines further down. -/
def moved
    (n : Nat) :
    Outcome → Outcome :=
  relabel (Token.moved n)

theorem moved_zero
    (outcome : Outcome) :
    outcome.moved 0 = outcome := by
  cases outcome with
  | failed error =>
      rfl
  | _ =>
      rfl

theorem moved_moved
    (n k : Nat)
    (outcome : Outcome) :
    (outcome.moved n).moved k = outcome.moved (n + k) := by
  cases outcome with
  | failed error =>
      have hLine :
          error.token.line + n + k =
            error.token.line + (n + k) :=
        Nat.add_assoc _ n k
      simp only [moved, relabel, RuntimeError.relabel,
        Token.moved, hLine]
  | _ =>
      rfl

end Outcome

namespace Run

variable {table : KeywordTable}
variable {allowance : Nat}
variable {source : String}
variable {machine : Machine Sink}

/-
  If the first clean source of a script reaches its end, the
  rest of the script goes on from there, further down.
-/
theorem ends_joined_of_ok
    (hFlushes : machine.sink.flushes = true)
    (hClean : isClean table source = true)
    (hOk :
      (ofSource table allowance source machine).outcome =
        .ok)
    (rest : List String) :
    let first := ofSource table allowance source machine
    let later :=
      ofSource table allowance (joined table rest)
        first.machine
    Ends
      (ofSource table allowance
        (joined table (source :: rest)) machine)
      (later.outcome.moved (source.toList.count '\n' + 1))
      (first.output ++ later.output)
      later.machine := by
  intro first later
  rcases joined_cons_of_clean hClean rest with
    ⟨hAlone, hEmpty⟩ | hBefore
  · have hBetween : first.machine.sink.flushes = true :=
      flushes_ofSource hFlushes table allowance source
    have hLater :=
      ends_empty hBetween table allowance
    rw [← hEmpty] at hLater
    rw [hAlone, hLater.outcome, hLater.output,
      hLater.machine, ByteArray.append_empty]
    exact ⟨hOk, rfl, rfl⟩
  · have hWhole := isClean_joined table (source :: rest)
    have hRest := isClean_joined table rest
    have hFront := isClean_iff.mp hClean
    have hBack := isClean_iff.mp hRest
    have hMoved :=
      Token.keepsText_moved (source.toList.count '\n' + 1)
    rw [ofSource_of_clean hClean] at hOk
    have hEnds :=
      ends_append_of_ok hMoved hFlushes hOk
        (check table (joined table rest)).program
    simp only [first, later]
    rw [ofSource_of_clean hWhole, ofSource_of_clean hClean,
      ofSource_of_clean hRest, hBefore,
      check_append_newline hFront hBack]
    exact hEnds

/- If the first clean source stops, so does the script. -/
theorem ends_joined_of_stop
    (hFlushes : machine.sink.flushes = true)
    (hClean : isClean table source = true)
    (hStop :
      (ofSource table allowance source machine).outcome ≠
        .ok)
    (rest : List String) :
    let first := ofSource table allowance source machine
    Ends
      (ofSource table allowance
        (joined table (source :: rest)) machine)
      first.outcome first.output first.machine := by
  intro first
  rcases joined_cons_of_clean hClean rest with
    ⟨hAlone, _⟩ | hBefore
  · rw [hAlone]
    exact ⟨rfl, rfl, rfl⟩
  · have hWhole := isClean_joined table (source :: rest)
    have hRest := isClean_joined table rest
    have hFront := isClean_iff.mp hClean
    have hBack := isClean_iff.mp hRest
    rw [ofSource_of_clean hClean] at hStop
    simp only [first]
    rw [ofSource_of_clean hWhole, ofSource_of_clean hClean,
      hBefore, check_append_newline hFront hBack]
    exact ends_append_of_stop hFlushes hStop _

end Run

end OcScript

------------------------------------------------------------
-- Sessions
------------------------------------------------------------

namespace OcScript

namespace Run

variable {W : Type}

/- The run did not stop: it ended well or never started. -/
def isCalm
    (run : Run W) :
    Bool :=
  run.outcome.isOk || run.outcome.isRejected

/- What runs printed, one after another. -/
def outputs : List (Run W) → ByteArray
| [] => .empty
| run :: later => run.output ++ outputs later

/- The machine after runs that started from `machine`. -/
def machineAfter
    (machine : Machine W) :
    List (Run W) → Machine W
| [] => machine
| run :: later => machineAfter run.machine later

variable [Writer W]
variable {table : KeywordTable}
variable {allowance : Nat}

/- Just the sources with diagnostics are turned away. -/
theorem isRejected_ofSource
    {machine : Machine Sink}
    (hFlushes : machine.sink.flushes = true)
    (table : KeywordTable)
    (allowance : Nat)
    (source : String) :
    (ofSource table allowance source
        machine).outcome.isRejected =
      !isClean table source := by
  by_cases hClean : isClean table source = true
  · have hRun :=
      ends_ofProgram hFlushes allowance
        (check table source).program
    rw [ofSource_of_clean hClean, hRun.outcome, hClean]
    exact Outcome.isRejected_ofResult _
  · rw [Bool.not_eq_true] at hClean
    rw [(ends_of_not_clean hClean allowance machine).outcome,
      hClean]
    rfl

/- A clean source that did not stop reached its end. -/
theorem outcome_eq_ok_of_isCalm
    {source : String}
    {machine : Machine Sink}
    (hFlushes : machine.sink.flushes = true)
    (hClean : isClean table source = true)
    (hCalm :
      (ofSource table allowance source machine).isCalm =
        true) :
    (ofSource table allowance source machine).outcome =
      .ok := by
  have hRejected :=
    isRejected_ofSource hFlushes table allowance source
  rw [hClean] at hRejected
  rw [isCalm, hRejected] at hCalm
  cases hOutcome :
      (ofSource table allowance source machine).outcome with
  | ok =>
      rfl
  | _ =>
      rw [hOutcome] at hCalm
      cases hCalm

/- A source that stopped is clean and not at its end. -/
theorem clean_of_not_isCalm
    {source : String}
    {machine : Machine W}
    (hStop :
      (ofSource table allowance source machine).isCalm =
        false) :
    isClean table source = true ∧
      (ofSource table allowance source machine).outcome ≠
        .ok := by
  refine ⟨?_, ?_⟩
  · by_contra hDirty
    rw [Bool.not_eq_true] at hDirty
    have hSkipped :=
      ends_of_not_clean hDirty allowance machine
    rw [isCalm, hSkipped.outcome] at hStop
    cases hStop
  · intro hOk
    rw [isCalm, hOk] at hStop
    cases hStop

/- A source with diagnostics adds nothing to a session. -/
theorem session_cons_of_not_clean
    {source : String}
    (hDirty : isClean table source = false)
    (rest : List String)
    (machine : Machine W) :
    let skipped := ofSource table allowance source machine
    ofSources table allowance (source :: rest) machine =
        skipped :: ofSources table allowance rest machine ∧
      (∀ later,
        outputs (skipped :: later) = outputs later) ∧
      ∀ later,
        machineAfter machine (skipped :: later) =
          machineAfter machine later := by
  intro skipped
  have hSkipped : Ends skipped _ _ _ :=
    ends_of_not_clean hDirty allowance machine
  refine ⟨?_, ?_, ?_⟩
  · rw [ofSources, inTurn, hSkipped.machine]
    rfl
  · intro later
    rw [outputs, hSkipped.output, ByteArray.empty_append]
  · intro later
    rw [machineAfter, hSkipped.machine]

/-
  A session without stops: the script reaches its end, has
  printed the same, and leaves the same machine.
-/
theorem script_ends_ok
    {sources : List String}
    {machine : Machine Sink}
    (hFlushes : machine.sink.flushes = true)
    (hCalm :
      ∀ run ∈ ofSources table allowance sources machine,
        run.isCalm = true) :
    let session := ofSources table allowance sources machine
    Ends
      (ofSource table allowance (joined table sources)
        machine)
      .ok (outputs session)
      (machineAfter machine session) := by
  induction sources generalizing machine with
  | nil =>
      exact ends_empty hFlushes table allowance
  | cons source rest ih =>
      by_cases hClean : isClean table source = true
      · rw [ofSources, inTurn, List.forall_mem_cons] at hCalm
        have hBetween :=
          flushes_ofSource hFlushes table allowance source
        have hLater := ih hBetween hCalm.2
        have hOk :=
          outcome_eq_ok_of_isCalm hFlushes hClean hCalm.1
        have hWhole :=
          ends_joined_of_ok hFlushes hClean hOk rest
        refine ⟨?_, ?_, ?_⟩
        · rw [hWhole.outcome, hLater.outcome]
          rfl
        · rw [hWhole.output, hLater.output]
          rfl
        · rw [hWhole.machine, hLater.machine]
          rfl
      · rw [Bool.not_eq_true] at hClean
        rcases
            session_cons_of_not_clean hClean rest machine with
          ⟨hSession, hOutputs, hMachine⟩
        rw [hSession, List.forall_mem_cons] at hCalm
        simp only [joined_cons_of_not_clean hClean, hSession,
          hOutputs, hMachine]
        exact ih hFlushes hCalm.2

/-
  A session that stops for the first time at some source:
  the script stops there too, further down, has printed the
  same, and leaves the same machine.
-/
theorem script_ends_early
    {before : List String}
    {piece : String}
    {machine : Machine Sink}
    (hFlushes : machine.sink.flushes = true)
    (hCalm :
      ∀ run ∈ ofSources table allowance before machine,
        run.isCalm = true)
    (hStop :
      (ofSource table allowance piece
        (machineAfter machine
          (ofSources table allowance before
            machine))).isCalm = false)
    (after : List String) :
    let earlier := ofSources table allowance before machine
    let run :=
      ofSource table allowance piece
        (machineAfter machine earlier)
    Ends
      (ofSource table allowance
        (joined table (before ++ piece :: after)) machine)
      (run.outcome.moved
        ((lead table before).toList.count '\n'))
      (outputs (earlier ++ [run]))
      run.machine := by
  induction before generalizing machine with
  | nil =>
      rcases clean_of_not_isCalm hStop with
        ⟨hClean, hOutcome⟩
      have hWhole :=
        ends_joined_of_stop hFlushes hClean hOutcome after
      refine ⟨?_, ?_, hWhole.machine⟩
      · rw [List.nil_append, hWhole.outcome]
        exact (Outcome.moved_zero _).symm
      · rw [List.nil_append, hWhole.output]
        exact ByteArray.append_empty.symm
  | cons source rest ih =>
      by_cases hClean : isClean table source = true
      · rw [ofSources, inTurn, List.forall_mem_cons] at hCalm
        have hBetween :=
          flushes_ofSource hFlushes table allowance source
        have hLater := ih hBetween hCalm.2 hStop
        have hOk :=
          outcome_eq_ok_of_isCalm hFlushes hClean hCalm.1
        have hWhole :=
          ends_joined_of_ok hFlushes hClean hOk
            (rest ++ piece :: after)
        refine ⟨?_, ?_, ?_⟩
        · rw [List.cons_append, hWhole.outcome,
            hLater.outcome, Outcome.moved_moved,
            ← count_lead_cons_of_clean hClean]
          rfl
        · rw [List.cons_append, hWhole.output,
            hLater.output]
          rfl
        · rw [List.cons_append, hWhole.machine,
            hLater.machine]
          rfl
      · rw [Bool.not_eq_true] at hClean
        rcases
            session_cons_of_not_clean hClean rest machine with
          ⟨hSession, hOutputs, hMachine⟩
        rw [hSession, List.forall_mem_cons] at hCalm
        rw [hSession, hMachine] at hStop
        simp only [List.cons_append, hSession, hOutputs,
          hMachine, joined_cons_of_not_clean hClean,
          lead_cons_of_not_clean hClean]
        exact ih hFlushes hCalm.2 hStop

/- A session goes on from where its first part ended. -/
theorem ofSources_append
    (front back : List String)
    (machine : Machine W) :
    ofSources table allowance (front ++ back) machine =
      ofSources table allowance front machine ++
        ofSources table allowance back
          (machineAfter machine
            (ofSources table allowance front machine)) := by
  induction front generalizing machine with
  | nil =>
      rfl
  | cons source rest ih =>
      exact congrArg _ (ih _)

/- A session has one run for every source. -/
theorem length_ofSources
    (sources : List String)
    (machine : Machine W) :
    (ofSources table allowance sources machine).length =
      sources.length := by
  induction sources generalizing machine with
  | nil =>
      rfl
  | cons source rest ih =>
      exact congrArg (· + 1) (ih _)

/- The runs of a session, cut where its sources are cut. -/
theorem parts_of_ofSources
    {before after : List String}
    {piece : String}
    {machine : Machine W}
    {earlier later : List (Run W)}
    {run : Run W}
    (hSession :
      ofSources table allowance (before ++ piece :: after)
        machine = earlier ++ run :: later)
    (hLength : earlier.length = before.length) :
    ofSources table allowance before machine = earlier ∧
      ofSource table allowance piece
        (machineAfter machine earlier) = run := by
  rw [ofSources_append] at hSession
  have hSame :
      (ofSources table allowance before machine).length =
        earlier.length := by
    rw [length_ofSources, hLength]
  rcases List.append_inj hSession hSame with
    ⟨hEarlier, hRun⟩
  rw [hEarlier, ofSources, inTurn] at hRun
  exact ⟨hEarlier, (List.cons.inj hRun).1⟩

end Run

end OcScript

------------------------------------------------------------
-- Sessions and Scripts
------------------------------------------------------------

namespace OcScript

namespace Run

/-
  A session and the script of its clean sources agree, on
  any machine whose sink can be flushed.

  If no source stops, the script reaches its end, and prints
  and leaves what the session does.  If a source is the
  first to fail, the script fails with the same message at a
  token of the same kind and lexeme, as many lines further
  down as there are newlines before that source, and has
  printed and leaves what the session has right after it.
-/
theorem script_agrees_with_session
    (table : KeywordTable)
    (allowance : Nat)
    (sources : List String)
    (machine : Machine Sink)
    (hFlushes : machine.sink.flushes = true) :
    let session := ofSources table allowance sources machine
    let script :=
      ofSource table allowance (joined table sources) machine
    ((∀ run ∈ session, run.isCalm = true) →
      script.outcome = .ok ∧
        script.output = outputs session ∧
        script.machine = machineAfter machine session) ∧
      ∀ before piece after earlier run later error,
        sources = before ++ piece :: after →
        session = earlier ++ run :: later →
        earlier.length = before.length →
        (∀ early ∈ earlier, early.isCalm = true) →
        run.outcome = .failed error →
        ∃ found following,
          script.outcome = .failed found ∧
            found.message = error.message ∧
            found.token.kind = error.token.kind ∧
            found.token.lexeme = error.token.lexeme ∧
            found.token.line =
              error.token.line +
                (lead table before).toList.count '\n' ∧
            joined table sources =
              lead table before ++ piece ++ following ∧
            script.output = outputs (earlier ++ [run]) ∧
            script.machine = run.machine := by
  intro session script
  refine ⟨?_, ?_⟩
  · intro hCalm
    have hEnds := script_ends_ok hFlushes hCalm
    exact ⟨hEnds.outcome, hEnds.output, hEnds.machine⟩
  · intro before piece after earlier run later error
      hSources hSession hLength hCalm hFailed
    subst hSources
    rcases parts_of_ofSources hSession hLength with
      ⟨rfl, rfl⟩
    have hStop :
        (ofSource table allowance piece
          (machineAfter machine
            (ofSources table allowance before
              machine))).isCalm = false := by
      rw [isCalm, hFailed]
      rfl
    have hEnds :=
      script_ends_early hFlushes hCalm hStop after
    rcases
        joined_eq_lead_append (clean_of_not_isCalm hStop).1
          before after with
      ⟨following, hFollowing⟩
    have hMoved :=
      Token.keepsText_moved
        ((lead table before).toList.count '\n')
    have hOutcome := hEnds.outcome
    rw [hFailed] at hOutcome
    exact
      ⟨_, following, hOutcome,
        RuntimeError.message_relabel hMoved error,
        rfl, rfl, rfl, hFollowing, hEnds.output,
        hEnds.machine⟩

/-
  A session of a source that ends in a comment, a source
  that is turned away, one that fails in its second line,
  and one that is never reached by the script.
-/
def mixedSession : List String :=
  ["var a = \"x\"; // bound", "senon", "est a;\nest -a;",
    "est a;"]

/-
  The script of the mixed session fails in its third line,
  since one newline stands before the failing source.
  Without that source, the script reaches its end.
-/
theorem script_agrees_with_session_mixedSession :
    let machine := Machine.fresh Sink.unbounded
    let script :=
      ofSource .standard 1
        (joined .standard mixedSession) machine
    let calmScript :=
      ofSource .standard 1
        (joined .standard (mixedSession.eraseIdx 2)) machine
    machine.sink.flushes = true ∧
      (calmScript.outcome = .ok ∧
        calmScript.output = "x\n".toUTF8) ∧
      ∃ found,
        script.outcome = .failed found ∧
          found.message = "Operand must be a number" ∧
          found.token.lexeme = "-" ∧
          found.token.line = 3 ∧
          script.output = "x\n".toUTF8 := by
  intro machine script calmScript
  refine ⟨rfl, ?_, ?_⟩
  · let session :=
      ofSources .standard 1 (mixedSession.eraseIdx 2) machine
    have hCalm : ∀ run ∈ session, run.isCalm = true := by
      decide +kernel
    have hOutputs : outputs session = "x\n".toUTF8 := by
      decide +kernel
    have hAgrees :=
      script_agrees_with_session .standard 1
        (mixedSession.eraseIdx 2) machine rfl
    rcases hAgrees.1 hCalm with ⟨hOk, hOutput, _⟩
    exact ⟨hOk, hOutput.trans hOutputs⟩
  · let before := mixedSession.take 2
    let earlier := ofSources .standard 1 before machine
    let run :=
      ofSource .standard 1 "est a;\nest -a;"
        (machineAfter machine earlier)
    let error : RuntimeError :=
      ⟨⟨.symbol .minus, "-", 2⟩, .operandNotNumber⟩
    have hCalm :
        ∀ early ∈ earlier, early.isCalm = true := by
      decide +kernel
    have hFailed : run.outcome = .failed error := by
      decide +kernel
    have hOutputs :
        outputs (earlier ++ [run]) = "x\n".toUTF8 := by
      decide +kernel
    have hAgrees :=
      script_agrees_with_session .standard 1 mixedSession
        machine rfl
    rcases
        hAgrees.2 before "est a;\nest -a;" ["est a;"]
          earlier run _ error rfl rfl rfl hCalm hFailed with
      ⟨found, _, hOutcome, hMessage, _, hLexeme, hLine, _,
        hOutput, _⟩
    refine
      ⟨found, hOutcome, hMessage, hLexeme, ?_,
        hOutput.trans hOutputs⟩
    rw [hLine]
    decide +kernel

end Run

end OcScript
