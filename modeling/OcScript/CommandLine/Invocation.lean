import OcScript.CommandLine.Folder
import OcScript.CommandLine.Lines
import OcScript.CommandLine.Options
import OcScript.Run

/-
  This file defines what an invocation of the interpreter
  does.

  With a script, the script is run.  Without one, every line
  of the input is run as a source of its own, and errors do
  not end the session.  The number of scripts is looked at
  before any file is read, and the keyword file is read
  before the script.

  Key definitions include:
    * `OcScript.CommandLine.Transcript`
    * `OcScript.CommandLine.Settings`
    * `OcScript.CommandLine.Plan`
    * `OcScript.CommandLine.Plan.ofArguments`
    * `OcScript.CommandLine.invoke`
-/

------------------------------------------------------------
-- Transcripts
------------------------------------------------------------

namespace OcScript

namespace CommandLine

/- What an invocation leaves: its exit status and output. -/
structure Transcript where
  exitCode : Nat
  output : String
  errors : String
deriving DecidableEq, Repr

/- Lines of text, each with its line end. -/
def unlines
    (lines : List String) :
    String :=
  String.join (lines.map fun line => line ++ "\n")

/- How sources are run. -/
structure Settings where
  table : KeywordTable
  dump : Bool
  allowance : Nat

/-
  What a run says beside its output: the dump of its
  program, if it is asked for, and then what went wrong.
-/
def remarks
    (settings : Settings)
    (run : Run) :
    List String :=
  (if settings.dump then run.dump else []) ++
    run.outcome.complaints

/- Run a source under some settings. -/
def runSource
    (settings : Settings)
    (source : String)
    (machine : Machine Sink) :
    Run :=
  Run.ofSource settings.table settings.allowance source
    machine

end CommandLine

end OcScript

------------------------------------------------------------
-- Plans
------------------------------------------------------------

namespace OcScript

namespace CommandLine

/- What a command line asks to be done. -/
inductive Plan where
| refuse
| showUsage
| start
    (keywordFile : Option String)
    (dump : Bool)
    (script : Option String)
deriving DecidableEq, Repr

namespace Plan

/- The plan of a command line. -/
def ofArguments
    (arguments : List String) :
    Plan :=
  match Options.ofArguments? arguments with
  | none => .refuse
  | some options =>
      match options.scripts with
      | [] => .start options.keywordFile options.dump none
      | [script] =>
          .start options.keywordFile options.dump
            (some script)
      | _ => .showUsage

end Plan

/- How the interpreter is to be invoked. -/
def usage : String :=
  "Usage: oc [script]"

/- Reports of files that cannot be used. -/
inductive FileError where
| script (path : String) (error : ReadError)
| keywordFile (path : String) (error : ReadError)
| keywordMap (path : String)
deriving DecidableEq, Repr

namespace FileError

/-
  The report of a file error.  A report on the contents of a
  keyword file is left open at its end.
-/
def report : FileError → String
| script path error =>
    "could not read script '" ++ path ++ "': " ++
      error.cause ++ "\n"
| keywordFile path error =>
    KeywordFileError.unreadable.message path ++ ": " ++
      error.cause ++ "\n"
| keywordMap path =>
    KeywordFileError.notStringMap.message path

/- The transcript of an invocation that a file ends. -/
def transcript
    (error : FileError) :
    Transcript :=
  ⟨74, "", error.report⟩

end FileError

end CommandLine

end OcScript

------------------------------------------------------------
-- Invocations
------------------------------------------------------------

namespace OcScript

namespace CommandLine

/- The keyword table an invocation uses. -/
def loadTable
    (read : String → Except ReadError String) :
    Option String → Except FileError KeywordTable
| none => .ok KeywordTable.standard
| some path =>
    match read path with
    | .error error => .error (.keywordFile path error)
    | .ok text =>
        match KeywordTable.ofText text with
        | .error _ => .error (.keywordMap path)
        | .ok table => .ok table

/- Run one script. -/
def runScript
    (settings : Settings)
    (source : String) :
    Transcript :=
  let run :=
    runSource settings source (Machine.fresh .unbounded)
  ⟨run.outcome.exitCode, Sink.textOf run.output,
    unlines (remarks settings run)⟩

/- Run the lines of a session. -/
def runSession
    (settings : Settings)
    (input : String) :
    Transcript :=
  let runs :=
    Run.inTurn (runSource settings) (sessionLines input)
      (Machine.fresh .unbounded)
  ⟨0,
    String.join (runs.map fun run => Sink.textOf run.output),
    unlines (runs.flatMap (remarks settings))⟩

/-
  Carry out a command line, where `read` gives the texts of
  files and `input` is what a session is fed.
-/
def invoke
    (allowance : Nat)
    (read : String → Except ReadError String)
    (arguments : List String)
    (input : String) :
    Transcript :=
  match Plan.ofArguments arguments with
  | .refuse => ⟨2, "", ""⟩
  | .showUsage => ⟨64, usage ++ "\n", ""⟩
  | .start keywordFile dump script =>
      match loadTable read keywordFile with
      | .error error => error.transcript
      | .ok table =>
          let settings : Settings := ⟨table, dump, allowance⟩
          match script with
          | none => runSession settings input
          | some path =>
              match read path with
              | .error error =>
                  (FileError.script path error).transcript
              | .ok source => runScript settings source

end CommandLine

end OcScript
