import OcScript.Proofs.Exec.ScopeNames
import OcScript.Proofs.Run.ErrorPlaces
import OcScript.Proofs.Run.Sessions

/-
  This file proves which names are bound globally after each
  run of a session: those bound before it, and those of the
  completed declarations that stand in its program itself.

  A source that is turned away adds nothing.  A run that
  reached its end added all of its declarations, and a run
  that stopped added those before the statement that
  stopped.  Declarations inside of blocks are never among
  them, since no scope but the global one is open between
  two runs.

  Key theorems include:
    * `OcScript.Run.binds_of_ended`
    * `OcScript.Run.binds_of_stopped`
    * `OcScript.Run.exists_binds_ofSources`
    * `OcScript.Run.global_names_are_completed_declarations`
-/

------------------------------------------------------------
-- Names After a Run
------------------------------------------------------------

namespace OcScript

namespace Run

open Stmt (declaredNames StopsAfter)

variable {W : Type}
variable [Writer W]
variable {table : KeywordTable}
variable {allowance : Nat}
variable {source : String}
variable {start : Machine W}
variable {names : Set String}

/- A source that is turned away leaves the machine alone. -/
theorem machine_of_isRejected
    (hRejected :
      (ofSource table allowance source
        start).outcome.isRejected = true) :
    (ofSource table allowance source start).machine =
      start := by
  unfold ofSource at hRejected ⊢
  by_cases hClean :
      (check table source).diagnostics.isEmpty = true
  · rw [if_pos hClean, isRejected_ofProgram] at hRejected
    cases hRejected
  · rw [if_neg hClean]

/- Statements that all reached their end. -/
theorem binds_of_ended
    (hClean : (check table source).diagnostics = [])
    (hBinds : start.Binds names)
    {ended after : Machine W}
    (hEnded :
      Stmt.execAll allowance (check table source).program
        start = .ok () ended)
    (hScopes : after.scopes = ended.scopes) :
    after.Binds
      (names ∪
        declaredNames (check table source).program) := by
  have hNames :=
    Stmt.binds_of_execAll_ok (written_of_clean hClean).1
      hBinds hEnded
  exact hNames.of_scopes_eq hScopes

/- Statements that stopped early. -/
theorem binds_of_stopped
    (hClean : (check table source).diagnostics = [])
    (hBinds : start.Binds names)
    {after : Machine W}
    {stop : Stop}
    (hStopped :
      Stmt.execAll allowance (check table source).program
        start = .error stop after) :
    ∃ front,
      StopsAfter allowance (check table source).program
          start stop after front ∧
        after.Binds (names ∪ declaredNames front) := by
  rcases Stmt.stopsAfter_of_execAll_error hStopped with
    ⟨front, hStops⟩
  exact
    ⟨front, hStops,
      hStops.binds (written_of_clean hClean).1 hBinds⟩

/- No statement fails with the error of a failed flush. -/
theorem ne_flushFailure_of_error
    (hClean : (check table source).diagnostics = [])
    {after : Machine W}
    {error : RuntimeError}
    (hError :
      Stmt.execAll allowance (check table source).program
        start = .error (.failure error) after)
    (sinkError : SinkError) :
    error ≠ flushFailure sinkError := by
  rintro rfl
  have hBlamed := (among_body_of_error hClean hError).1
  have hMarked := isEof_of_mem_body hBlamed
  cases hMarked

/- A run whose statements reached their end. -/
theorem execAll_of_ended
    (hClean : (check table source).diagnostics = [])
    (hEnded :
      let run :=
        ofProgram allowance (check table source).program
          start
      run.outcome = .ok ∨
        ∃ sinkError,
          run.outcome = .failed (flushFailure sinkError)) :
    ∃ ended,
      Stmt.execAll allowance (check table source).program
          start = .ok () ended ∧
        (ofProgram allowance (check table source).program
          start).machine.scopes = ended.scopes := by
  dsimp only at hEnded
  rcases ofProgram_cases allowance
      (check table source).program start with
    ⟨ended, hOk, hScopes, -⟩ | ⟨error, hError, hFailed⟩ |
      ⟨-, hUnfinished⟩
  · exact ⟨ended, hOk, hScopes⟩
  · rw [hFailed] at hEnded
    rcases hEnded with hEnded | ⟨sinkError, hEnded⟩
    · cases hEnded
    · cases hEnded
      exact
        absurd rfl
          (ne_flushFailure_of_error hClean hError sinkError)
  · rw [hUnfinished] at hEnded
    rcases hEnded with hEnded | ⟨_, hEnded⟩
    · cases hEnded
    · cases hEnded

/- A run that ran out of the allowance in its statements. -/
theorem execAll_of_unfinished
    {program : Program}
    (hUnfinished :
      (ofProgram allowance program start).outcome =
        .unfinished) :
    Stmt.execAll allowance program start =
      .error .outOfAllowance
        (ofProgram allowance program start).machine := by
  rcases ofProgram_cases allowance program start with
    ⟨_, -, -, hOk | ⟨_, hFlush, -⟩⟩ | ⟨error, -, hFailed⟩ |
      ⟨hStop, -⟩
  · rw [hUnfinished] at hOk
    cases hOk
  · rw [hUnfinished] at hFlush
    cases hFlush
  · rw [hUnfinished] at hFailed
    cases hFailed
  · exact hStop

/- A run adds some of the names that its program declares. -/
theorem exists_binds_ofSource
    (hBinds : start.Binds names)
    (table : KeywordTable)
    (allowance : Nat)
    (source : String) :
    let run := ofSource table allowance source start
    ∃ added,
      run.machine.Binds (names ∪ added) ∧
        added ⊆ declaredNames run.program ∧
        (run.outcome.isRejected = true → added = ∅) := by
  intro run
  cases hRejected : run.outcome.isRejected with
  | true =>
      refine ⟨∅, ?_, Set.empty_subset _, fun _ => rfl⟩
      rw [Set.union_empty, machine_of_isRejected hRejected]
      exact hBinds
  | false =>
      rcases clean_of_not_isRejected hRejected with
        ⟨hClean, hRun⟩
      have hProgram :
          run.program = (check table source).program := by
        simp only [run, hRun, program_ofProgram]
      rw [hProgram]
      simp only [run, hRun]
      rcases ofProgram_cases allowance
          (check table source).program start with
        ⟨ended, hEnded, hScopes, -⟩ | ⟨error, hFailed, -⟩ |
          ⟨hLong, -⟩
      · exact
          ⟨_, binds_of_ended hClean hBinds hEnded hScopes,
            Set.Subset.rfl, fun hFalse => by cases hFalse⟩
      · rcases binds_of_stopped hClean hBinds hFailed with
          ⟨front, hStops, hAfter⟩
        exact
          ⟨_, hAfter, hStops.declaredNames_subset,
            fun hFalse => by cases hFalse⟩
      · rcases binds_of_stopped hClean hBinds hLong with
          ⟨front, hStops, hAfter⟩
        exact
          ⟨_, hAfter, hStops.declaredNames_subset,
            fun hFalse => by cases hFalse⟩

end Run

end OcScript

------------------------------------------------------------
-- Names in a Session
------------------------------------------------------------

namespace OcScript

namespace Run

open Stmt (declaredNames StopsAfter)

variable {W : Type}
variable [Writer W]

/- Sources add names that some of their runs declare. -/
theorem exists_binds_ofSources
    (table : KeywordTable)
    (allowance : Nat)
    (sources : List String)
    {machine : Machine W}
    {names : Set String}
    (hBinds : machine.Binds names) :
    let session := ofSources table allowance sources machine
    ∃ added,
      (machineAfter machine session).Binds
          (names ∪ added) ∧
        ∀ name ∈ added,
          ∃ run ∈ session,
            run.outcome.isRejected = false ∧
              name ∈ declaredNames run.program := by
  induction sources generalizing machine names with
  | nil =>
      refine ⟨∅, ?_, ?_⟩
      · rw [Set.union_empty]
        exact hBinds
      · intro name hMem
        cases hMem
  | cons source rest ih =>
      rcases
          exists_binds_ofSource hBinds table allowance
            source with
        ⟨first, hFirst, hDeclared, hEmpty⟩
      rcases ih hFirst with ⟨later, hLater, hOrigin⟩
      refine ⟨first ∪ later, ?_, ?_⟩
      · rw [← Set.union_assoc]
        exact hLater
      · rintro name (hMem | hMem)
        · refine
            ⟨_, List.mem_cons_self .., ?_, hDeclared hMem⟩
          rw [Bool.eq_false_iff]
          intro hRejected
          rw [hEmpty hRejected] at hMem
          cases hMem
        · rcases hOrigin name hMem with
            ⟨run, hRun, hOutcome, hName⟩
          exact
            ⟨run, List.mem_cons_of_mem _ hRun, hOutcome,
              hName⟩

/-
  The global names are exactly the completed declarations.

  Take any run of any session, whatever the runs before it
  came to.  Only the global scope is open before and after
  it.  If its source was turned away, the global names are
  those before it.  If its statements reached their end,
  also if the writer could not be flushed then, the names that
  the program declares itself are added.  If they stopped,
  those declared before the statement that stopped are
  added, and no others.  So no name is ever lost, and none
  comes from elsewhere than a declaration that stands in
  the program of some run itself.
-/
theorem global_names_are_completed_declarations
    (table : KeywordTable)
    (allowance : Nat)
    (globals : Frame)
    (sink : W)
    (before : List String)
    (source : String)
    (after : List String) :
    let machine : Machine W := ⟨[globals], sink⟩
    let earlier := ofSources table allowance before machine
    let start := machineAfter machine earlier
    let run := ofSource table allowance source start
    let program := (check table source).program
    (∃ later,
      ofSources table allowance
          (before ++ source :: after) machine =
        earlier ++ run :: later) ∧
      (start.IsOutermost ∧ run.machine.IsOutermost) ∧
      (run.outcome.isRejected = true →
        run.machine.globalNames = start.globalNames) ∧
      ((run.outcome = .ok ∨
          ∃ sinkError,
            run.outcome = .failed (flushFailure sinkError)) →
        run.machine.globalNames =
          start.globalNames ∪ declaredNames program) ∧
      (∀ error,
        run.outcome = .failed error →
        (∀ sinkError, error ≠ flushFailure sinkError) →
        ∃ front,
          StopsAfter allowance program start
              (.failure error) run.machine front ∧
            run.machine.globalNames =
              start.globalNames ∪ declaredNames front) ∧
      (run.outcome = .unfinished →
        ∃ front,
          StopsAfter allowance program start
              .outOfAllowance run.machine front ∧
            run.machine.globalNames =
              start.globalNames ∪ declaredNames front) ∧
      (machine.globalNames ⊆ start.globalNames ∧
        start.globalNames ⊆ run.machine.globalNames) ∧
      ∀ name ∈ start.globalNames,
        name ∈ machine.globalNames ∨
          ∃ early ∈ earlier,
            early.outcome.isRejected = false ∧
              name ∈ declaredNames early.program := by
  intro machine earlier start run program
  have hMachine : machine.Binds machine.globalNames :=
    ⟨⟨globals, rfl⟩, rfl⟩
  rcases exists_binds_ofSources table allowance before
      hMachine with
    ⟨added, hAdded, hOrigin⟩
  have hStart : start.Binds start.globalNames :=
    hAdded.isOutermost.binds
  rcases exists_binds_ofSource hStart table allowance
      source with
    ⟨new, hNew, -, -⟩
  refine ⟨?_, ⟨hStart.isOutermost, hNew.isOutermost⟩, ?_⟩
  · exact ⟨_, ofSources_append before (source :: after) _⟩
  have hAccepted :
      run.outcome.isRejected = false →
      (check table source).diagnostics = [] ∧
        run = ofProgram allowance program start :=
    clean_of_not_isRejected
  refine ⟨?_, ?_, ?_, ?_, ?_, ?_⟩
  · intro hRejected
    rw [machine_of_isRejected hRejected]
  · intro hEnded
    have hStarted : run.outcome.isRejected = false := by
      rcases hEnded with hEnded | ⟨_, hEnded⟩
      · rw [hEnded]
        rfl
      · rw [hEnded]
        rfl
    rcases hAccepted hStarted with ⟨hClean, hRun⟩
    rw [hRun] at hEnded ⊢
    rcases execAll_of_ended hClean hEnded with
      ⟨ended, hOk, hScopes⟩
    exact
      (binds_of_ended hClean hStart hOk hScopes).names_eq
  · intro error hFailed hError
    rcases hAccepted (by rw [hFailed]; rfl) with
      ⟨hClean, hRun⟩
    rw [hRun] at hFailed ⊢
    rcases cases_of_failed hFailed with
      hStopped | ⟨_, sinkError, -, -, -, hFlush⟩
    · rcases binds_of_stopped hClean hStart hStopped with
        ⟨front, hStops, hAfter⟩
      exact ⟨front, hStops, hAfter.names_eq⟩
    · exact absurd hFlush (hError sinkError)
  · intro hUnfinished
    rcases hAccepted (by rw [hUnfinished]; rfl) with
      ⟨hClean, hRun⟩
    rw [hRun] at hUnfinished ⊢
    have hStopped := execAll_of_unfinished hUnfinished
    rcases binds_of_stopped hClean hStart hStopped with
      ⟨front, hStops, hAfter⟩
    exact ⟨front, hStops, hAfter.names_eq⟩
  · refine ⟨?_, ?_⟩
    · rw [hAdded.names_eq]
      exact Set.subset_union_left
    · rw [hNew.names_eq]
      exact Set.subset_union_left
  · intro name hMem
    rw [hAdded.names_eq] at hMem
    exact hMem.imp_right (hOrigin name)

/-
  A session that declares a name beside a block, and then a
  source that is turned away.
-/
def declaringSession : List String :=
  ["var a = 1; { var b = 2; }", "var c = (;"]

/- Fails inside a block, between two declarations. -/
def failingBlock : String :=
  "var d = a; { var x = 2; est -nul; } var y = 3;"

/-
  What was declared before the block is bound after it, but
  nothing that was declared inside of it or after it.
-/
theorem global_names_are_completed_declarations_failingBlock :
    let machine := Machine.fresh Sink.unbounded
    let start :=
      machineAfter machine
        (ofSources .standard 1 declaringSession machine)
    let run := ofSource .standard 1 failingBlock start
    ∃ error front,
      run.outcome = .failed error ∧
        (∀ sinkError, error ≠ flushFailure sinkError) ∧
        StopsAfter 1 (check .standard failingBlock).program
          start (.failure error) run.machine front ∧
        run.machine.globalNames =
          start.globalNames ∪ declaredNames front ∧
        ("a" ∈ run.machine.globalNames ∧
          "d" ∈ run.machine.globalNames) ∧
        "b" ∉ run.machine.globalNames ∧
        "c" ∉ run.machine.globalNames ∧
        "x" ∉ run.machine.globalNames ∧
        "y" ∉ run.machine.globalNames := by
  intro machine start run
  let error : RuntimeError :=
    ⟨⟨.symbol .minus, "-", 1⟩, .operandNotNumber⟩
  have hFailed : run.outcome = .failed error := by
    decide +kernel
  have hError :
      ∀ sinkError, error ≠ flushFailure sinkError := by
    intro sinkError hSame
    cases congrArg RuntimeError.cause hSame
  have hNames :=
    global_names_are_completed_declarations .standard 1 ∅
      Sink.unbounded declaringSession failingBlock []
  rcases hNames with ⟨-, -, -, -, hStopped, -⟩
  rcases hStopped error hFailed hError with
    ⟨front, hStops, hAdded⟩
  refine
    ⟨error, front, hFailed, hError, hStops, hAdded, ?_⟩
  simp only [Machine.mem_globalNames]
  decide +kernel

end Run

end OcScript
