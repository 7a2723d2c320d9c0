import OcScript.CommandLine.Invocation

/-
  This file is the program itself: it reads the files and
  the input that an invocation needs, and writes what the
  invocation leaves.

  Key definitions include:
    * `OcScript.CommandLine.readFile`
    * `OcScript.CommandLine.followInput`
    * `OcScript.CommandLine.perform`
    * `main`
-/

------------------------------------------------------------
-- Files and Lines
------------------------------------------------------------

namespace OcScript

namespace CommandLine

/- More tests than the condition of any loop can see. -/
def loopAllowance : Nat :=
  Nat.pow 2 62

/-
  Read the text of a file.  A folder can be opened and only
  fails to be read, so an error of kind that names the path
  is about a file on the way.
-/
def readFile
    (path : String) :
    IO (Except ReadError String) := do
  try
    return textOf (← IO.FS.readBinFile path)
  catch
    | .noFileOrDirectory .. => return .error .missing
    | .inappropriateType (some _) .. =>
        return .error .notDirectory
    | _ => return .error .directory

/- Write what a run printed and what is said about it. -/
def writeOut
    (output errors : String) :
    IO Unit := do
  let stdout ← IO.getStdout
  stdout.putStr output
  stdout.flush
  (← IO.getStderr).putStr errors

/- Run the lines of the input as they come. -/
partial def followInput
    (settings : Settings)
    (machine : Machine Sink) :
    IO Unit := do
  let line ← (← IO.getStdin).getLine
  if line.isEmpty then
    return
  let runs :=
    Run.inTurn (runSource settings) (sessionLines line)
      machine
  for run in runs do
    writeOut (Sink.textOf run.output)
      (unlines (remarks settings run))
  followInput settings
    (runs.getLast?.elim machine Run.machine)

/- Write a transcript and give its exit status. -/
def finish
    (transcript : Transcript) :
    IO UInt32 := do
  writeOut transcript.output transcript.errors
  return transcript.exitCode.toUInt32

/- Carry out a command line on the files of the system. -/
def perform
    (arguments : List String) :
    IO UInt32 := do
  match Plan.ofArguments arguments with
  | .start keywordFile dump none =>
      let text ← keywordFile.mapM readFile
      let read := fun _ => text.getD (.error .missing)
      match loadTable read keywordFile with
      | .error error => finish error.transcript
      | .ok table =>
          followInput ⟨table, dump, loopAllowance⟩
            (.fresh .unbounded)
          return 0
  | .start keywordFile _ (some script) =>
      let paths := keywordFile.toList ++ [script]
      let texts ← paths.mapM readFile
      let read := fun path =>
        ((paths.zip texts).lookup path).getD
          (.error .missing)
      finish (invoke loopAllowance read arguments "")
  | .refuse | .showUsage =>
      finish
        (invoke loopAllowance (fun _ => .error .missing)
          arguments "")

end CommandLine

end OcScript

------------------------------------------------------------
-- The Program
------------------------------------------------------------

/- Carry out the command line. -/
def main
    (arguments : List String) :
    IO UInt32 :=
  OcScript.CommandLine.perform arguments
