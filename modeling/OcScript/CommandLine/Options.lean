/-
  This file reads the options of the command line.

  Options and scripts may stand in any order; two dashes end
  the options.  An option that is unknown, is given twice,
  or lacks its value makes the command line invalid.

  Key definitions include:
    * `OcScript.CommandLine.Argument`
    * `OcScript.CommandLine.Argument.ofText`
    * `OcScript.CommandLine.Options`
    * `OcScript.CommandLine.Options.ofArguments?`
-/

------------------------------------------------------------
-- Arguments
------------------------------------------------------------

namespace OcScript

namespace CommandLine

/-
  What an argument says on its own.  The option for the
  keyword file may carry its value or leave it to the next
  argument.
-/
inductive Argument where
| script (path : String)
| keywordFile (path : Option String)
| dump
| endOfOptions
| invalid
deriving DecidableEq, Repr

namespace Argument

/- Read an option that has a long name. -/
def ofLongName
    (text : List Char) :
    Argument :=
  let name := String.ofList (text.takeWhile (· ≠ '='))
  let value :=
    match text.dropWhile (· ≠ '=') with
    | [] => none
    | _ :: value => some (String.ofList value)
  if name = "keywords" then
    .keywordFile value
  else if name = "dump-ast" ∧ value.isNone then
    .dump
  else
    .invalid

/- Read an argument. -/
def ofText
    (text : String) :
    Argument :=
  match text.toList with
  | ['-', '-'] => .endOfOptions
  | '-' :: '-' :: name => ofLongName name
  | ['-'] => .script text
  | ['-', 'k'] => .keywordFile none
  | '-' :: 'k' :: '=' :: path =>
      .keywordFile (some (String.ofList path))
  | '-' :: 'k' :: path =>
      .keywordFile (some (String.ofList path))
  | '-' :: _ => .invalid
  | _ => .script text

end Argument

end CommandLine

end OcScript

------------------------------------------------------------
-- Options
------------------------------------------------------------

namespace OcScript

namespace CommandLine

/- What the command line asks for. -/
structure Options where
  keywordFile : Option String
  dump : Bool
  scripts : List String
deriving DecidableEq, Repr

namespace Options

/- No options and no scripts. -/
def none : Options :=
  ⟨.none, false, []⟩

/- Set the keyword file, which can be done only once. -/
def withKeywordFile?
    (options : Options)
    (path : String) :
    Option Options :=
  if options.keywordFile.isSome then
    .none
  else
    some { options with keywordFile := some path }

/- Ask for a dump, which can be done only once. -/
def withDump?
    (options : Options) :
    Option Options :=
  if options.dump then
    .none
  else
    some { options with dump := true }

/- Add scripts after those given so far. -/
def withScripts
    (options : Options)
    (paths : List String) :
    Options :=
  { options with scripts := options.scripts ++ paths }

/- Read the arguments that follow some options. -/
def readFrom?
    (options : Options) :
    List String → Option Options
| [] => some options
| argument :: rest =>
    match Argument.ofText argument with
    | .script path =>
        (options.withScripts [path]).readFrom? rest
    | .dump => do
        (← options.withDump?).readFrom? rest
    | .keywordFile (some path) => do
        (← options.withKeywordFile? path).readFrom? rest
    | .keywordFile .none =>
        match rest with
        | [] => .none
        | value :: rest =>
            match Argument.ofText value with
            | .script path => do
                (← options.withKeywordFile? path).readFrom?
                  rest
            | _ => .none
    | .endOfOptions => some (options.withScripts rest)
    | .invalid => .none

/- Read all arguments, if they are valid. -/
def ofArguments?
    (arguments : List String) :
    Option Options :=
  none.readFrom? arguments

end Options

end CommandLine

end OcScript
