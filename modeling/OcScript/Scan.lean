import OcScript.Chunk
import OcScript.Diagnostic
import OcScript.KeywordTable

/-
  This file turns the chunks of a source into tokens and
  scan errors.

  Each chunk is given the line on which it ends.  Symbols,
  strings, numbers, and words become tokens; unclosed
  strings and stray characters become errors; blanks and
  comments become nothing.  One token marks the end.

  Key definitions include:
    * `OcScript.ScanError`
    * `OcScript.Located`
    * `OcScript.Located.ofChunks`
    * `OcScript.scan`
-/

------------------------------------------------------------
-- Scan Errors
------------------------------------------------------------

namespace OcScript

/- What can be wrong with the characters of a source. -/
inductive ScanCause where
| unexpectedCharacter
| unterminatedString
deriving DecidableEq, Repr

namespace ScanCause

/- What a scan error says. -/
def message : ScanCause → String
| unexpectedCharacter => "Unexpected character."
| unterminatedString => "Unterminated string."

end ScanCause

/- An error at a line of a source. -/
structure ScanError where
  line : Nat
  cause : ScanCause
deriving DecidableEq, Repr

namespace ScanError

/- The report of a scan error. -/
def toDiagnostic
    (e : ScanError) :
    Diagnostic :=
  .scan e.line e.cause.message

end ScanError

end OcScript

------------------------------------------------------------
-- Located Chunks
------------------------------------------------------------

namespace OcScript

/- A chunk and the line on which it ends. -/
structure Located where
  line : Nat
  chunk : Chunk
deriving DecidableEq, Repr

namespace Located

/-
  Give each chunk the line on which it ends, where the
  first chunk starts on line `line`.
-/
def ofChunks
    (line : Nat) :
    List Chunk → List Located
| [] => []
| k :: rest =>
    let last := line + k.newlines
    ⟨last, k⟩ :: ofChunks last rest

/- The kind of token a chunk makes, if it makes one. -/
def kind?
    (table : KeywordTable)
    (k : Chunk) :
    Option TokenKind :=
  match k.kind with
  | .symbol symbol => some (.symbol symbol)
  | .string =>
      some (.string (String.ofList k.tail.dropLast))
  | .number =>
      some (.number (Decimal.ofText k.text).toFloat)
  | .word => some (table.kindOf (String.ofList k.text))
  | .blank | .comment | .unclosed | .stray => none

/- The token a chunk makes, if it makes one. -/
def token?
    (table : KeywordTable)
    (l : Located) :
    Option Token :=
  (kind? table l.chunk).map fun kind =>
    ⟨kind, String.ofList l.chunk.text, l.line⟩

/- The error a chunk makes, if it makes one. -/
def error?
    (l : Located) :
    Option ScanError :=
  match l.chunk.kind with
  | .stray => some ⟨l.line, .unexpectedCharacter⟩
  | .unclosed => some ⟨l.line, .unterminatedString⟩
  | _ => none

end Located

end OcScript

------------------------------------------------------------
-- Scanning
------------------------------------------------------------

namespace OcScript

/-
  The tokens and the errors of a source.  The tokens end
  with the one that marks the end of the source.
-/
structure Scanned where
  tokens : List Token
  errors : List ScanError
deriving DecidableEq, Repr

/- Scan a source whose keywords are spelled as in `table`. -/
def scan
    (table : KeywordTable)
    (source : String) :
    Scanned :=
  let text := source.toList
  let chunks := Located.ofChunks 1 (Chunk.ofText text)
  { tokens :=
      chunks.filterMap (Located.token? table) ++
        [Token.atEnd (1 + text.count '\n')]
    errors := chunks.filterMap Located.error? }

end OcScript
