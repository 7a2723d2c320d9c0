import OcScript.Token

/-
  This file defines diagnostics, the reports about a source
  that keep it from being run.

  A diagnostic from scanning names a line; one from parsing
  names a token.  Reports are kept in the order in which
  they were made.

  Key definitions include:
    * `OcScript.Diagnostic`
    * `OcScript.Diagnostic.text`
    * `OcScript.Diagnostic.report`
-/

------------------------------------------------------------
-- Diagnostics
------------------------------------------------------------

namespace OcScript

/- A report about a source and the place it points to. -/
inductive Diagnostic where
| scan (line : Nat) (message : String)
| parse (token : Token) (message : String)
deriving DecidableEq, Repr

namespace Diagnostic

/- The line a diagnostic points to. -/
def line : Diagnostic → Nat
| .scan line _ => line
| .parse token _ => token.line

/- What a diagnostic says. -/
def message : Diagnostic → String
| .scan _ message => message
| .parse _ message => message

/- The diagnostic comes from scanning. -/
def isScan : Diagnostic → Bool
| .scan _ _ => true
| .parse _ _ => false

/- The place of a token in a diagnostic. -/
def place
    (t : Token) :
    String :=
  if t.isEof then "at end" else "at '" ++ t.lexeme ++ "'"

/- The place a diagnostic names beside its line. -/
def location : Diagnostic → String
| .scan _ _ => ""
| .parse token _ => place token

/- The text of a diagnostic. -/
def text
    (d : Diagnostic) :
    String :=
  "Error " ++ d.location ++ ": " ++ d.message ++
    " [" ++ toString d.line ++ "]"

/- The text of several diagnostics, one on each line. -/
def report
    (ds : List Diagnostic) :
    String :=
  "\n".intercalate (ds.map text)

/- The diagnostics that come from scanning. -/
def fromScan
    (ds : List Diagnostic) :
    List Diagnostic :=
  ds.filter isScan

/- The diagnostics that come from parsing. -/
def fromParse
    (ds : List Diagnostic) :
    List Diagnostic :=
  ds.filter fun d => !d.isScan

end Diagnostic

end OcScript
