import OcScript.Parse.Statement
import OcScript.Scan

/-
  This file reads whole programs from tokens and sources.

  Only the tokens before the first end marker are read; the
  marker itself is where a failure at the end is reported.

  Key definitions include:
    * `OcScript.Parsed`
    * `OcScript.Parsed.ofTokens`
    * `OcScript.Checked`
    * `OcScript.check`
-/

------------------------------------------------------------
-- Programs from Tokens
------------------------------------------------------------

namespace OcScript

/- The program read from tokens, with all reports on it. -/
structure Parsed where
  program : Program
  errors : List ParseError
deriving Repr

namespace Parsed

/- Read declarations up to the end, marked by `eof`. -/
def ofBody
    (eof : Token)
    (tokens : List Token) :
    Parsed :=
  match tokens with
  | [] => ⟨[], []⟩
  | t :: rest =>
      let ⟨first, _⟩ :=
        Parse.declaration eof (t :: rest)
      let others := ofBody eof first.rest
      ⟨first.value :: others.program,
        first.reports ++ others.errors⟩
termination_by tokens.length
decreasing_by
  simp only [List.length_cons] at *
  omega

/-
  Read the program that stands before the first end marker.
-/
def ofTokens
    (tokens : List Token) :
    Parsed :=
  let body := tokens.takeWhile fun t => !t.isEof
  let marker := tokens.dropWhile fun t => !t.isEof
  ofBody (marker.headD (Token.atEnd 1)) body

end Parsed

end OcScript

------------------------------------------------------------
-- Programs from Sources
------------------------------------------------------------

namespace OcScript

/- The program of a source, with all diagnostics on it. -/
structure Checked where
  program : Program
  diagnostics : List Diagnostic
deriving Repr

/-
  Scan and parse a source.  Scan errors are reported before
  parse errors.
-/
def check
    (table : KeywordTable)
    (source : String) :
    Checked :=
  let scanned := scan table source
  let parsed := Parsed.ofTokens scanned.tokens
  { program := parsed.program
    diagnostics :=
      scanned.errors.map ScanError.toDiagnostic ++
        parsed.errors.map ParseError.toDiagnostic }

end OcScript
