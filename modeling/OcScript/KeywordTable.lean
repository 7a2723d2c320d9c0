import OcScript.StringMap
import OcScript.Token

/-
  This file defines keyword tables, which settle how the
  keywords are spelled, and reads them from keyword files.

  Key definitions include:
    * `OcScript.KeywordTable`
    * `OcScript.KeywordTable.ofSpellings`
    * `OcScript.KeywordTable.standard`
    * `OcScript.KeywordTable.kindOf`
    * `OcScript.KeywordTable.ofText`
    * `OcScript.KeywordTable.ofBytes`
-/

------------------------------------------------------------
-- Tables
------------------------------------------------------------

namespace OcScript

/- A keyword table maps spellings to keywords. -/
abbrev KeywordTable :=
  Std.ExtTreeMap String Keyword

namespace KeywordTable

/-
  Add one entry, a keyword's name and its spelling.  An
  unknown name leaves the table as it is.
-/
def addSpelling
    (table : KeywordTable)
    (entry : String × String) :
    KeywordTable :=
  match Keyword.ofName? entry.1 with
  | none => table
  | some keyword => table.insert entry.2 keyword

/- The table of a list of names with their spellings. -/
def ofSpellings
    (entries : List (String × String)) :
    KeywordTable :=
  entries.foldl addSpelling ∅

/- The standard spellings of the keywords. -/
def standardSpellings : List (String × String) :=
  [("and", "e"), ("or", "o"), ("class", "classa"),
    ("if", "se"), ("else", "senon"), ("false", "fals"),
    ("function", "foncion"), ("for", "per"),
    ("nil", "nul"), ("print", "est"),
    ("return", "tornar"), ("super", "eretar"),
    ("this", "aico"), ("true", "true"), ("var", "var"),
    ("while", "mentre")]

/- The table used when no keyword file is given. -/
def standard : KeywordTable :=
  ofSpellings standardSpellings

/-
  The kind of a word: the keyword it spells, or else an
  identifier.
-/
def kindOf
    (table : KeywordTable)
    (word : String) :
    TokenKind :=
  match table[word]? with
  | some keyword => .keyword keyword
  | none => .identifier

end KeywordTable

end OcScript

------------------------------------------------------------
-- Keyword Files
------------------------------------------------------------

namespace OcScript

/- The reasons a keyword file gives no table. -/
inductive KeywordFileError where
| unreadable
| notStringMap
deriving DecidableEq, Repr

namespace KeywordFileError

/- The message for the keyword file at `path`. -/
def message
    (path : String) :
    KeywordFileError → String
| unreadable => "could not read keyword file '" ++ path ++ "'"
| notStringMap =>
    "keyword file '" ++ path ++ "' is not a JSON string map"

end KeywordFileError

namespace KeywordTable

/- The table described by the text of a keyword file. -/
def ofText
    (text : String) :
    Except KeywordFileError KeywordTable :=
  match StringMap.ofText? text with
  | none => .error .notStringMap
  | some map => .ok (ofSpellings map.toList)

/- The table described by the bytes of a keyword file. -/
def ofBytes
    (bytes : ByteArray) :
    Except KeywordFileError KeywordTable :=
  match String.fromUTF8? bytes with
  | none => .error .unreadable
  | some text => ofText text

end KeywordTable

end OcScript
