import OcScript.Text.Cluster

/-
  This file cuts the input of a session into lines.

  Key definitions include:
    * `OcScript.CommandLine.isWhiteSpace`
    * `OcScript.CommandLine.splitLines`
    * `OcScript.CommandLine.takeBack`
    * `OcScript.CommandLine.sessionLines`
-/

------------------------------------------------------------
-- White Space
------------------------------------------------------------

namespace OcScript

namespace CommandLine

/-
  The characters with the Unicode property White_Space.
-/
def isWhiteSpace
    (c : Char) :
    Bool :=
  let n := c.toNat
  (0x9 ≤ n ∧ n ≤ 0xD) ∨ n = 0x20 ∨ n = 0x85 ∨ n = 0xA0 ∨
    n = 0x1680 ∨ (0x2000 ≤ n ∧ n ≤ 0x200A) ∨ n = 0x2028 ∨
    n = 0x2029 ∨ n = 0x202F ∨ n = 0x205F ∨ n = 0x3000

end CommandLine

end OcScript

------------------------------------------------------------
-- Lines
------------------------------------------------------------

namespace OcScript

namespace CommandLine

/-
  Cut a text at its line ends.  A carriage return before a
  line end belongs to it.
-/
def splitLines : List Char → List (List Char)
| [] => [[]]
| '\n' :: rest => [] :: splitLines rest
| '\r' :: '\n' :: rest => [] :: splitLines rest
| c :: rest =>
    match splitLines rest with
    | [] => [[c]]
    | line :: lines => (c :: line) :: lines

end CommandLine

end OcScript

------------------------------------------------------------
-- Backspaces
------------------------------------------------------------

namespace OcScript

namespace CommandLine

/-
  A line while its backspaces are carried out: the
  characters that are kept, last first, and how many bytes
  a backspace takes back of each cluster among them.
-/
structure Draft where
  kept : List Char
  sizes : List UInt8
deriving DecidableEq, Repr

namespace Draft

/- A line of which nothing is seen yet. -/
def blank : Draft :=
  ⟨[], []⟩

/-
  Drop the first characters of a text until so many bytes
  are gone.
-/
def dropBytes : Nat → List Char → List Char
| 0, text => text
| _, [] => []
| size, c :: rest => dropBytes (size - c.utf8Size) rest

/-
  The size of a cluster in bytes.  It is held in one byte,
  so that of a longer cluster only the excess over whole
  rounds of 256 is taken back.
-/
def byteSize
    (cluster : List Char) :
    UInt8 :=
  (String.ofList cluster).utf8ByteSize.toUInt8

/- Take the next cluster of a line. -/
def take
    (draft : Draft)
    (cluster : List Char) :
    Draft :=
  if cluster = ['\x08'] then
    match draft.sizes with
    | [] => draft
    | size :: sizes =>
        ⟨dropBytes size.toNat draft.kept, sizes⟩
  else
    ⟨cluster.reverse ++ draft.kept,
      byteSize cluster :: draft.sizes⟩

end Draft

/- Let each backspace take back the cluster before it. -/
def takeBack
    (line : List Char) :
    List Char :=
  let draft :=
    (Text.clusters line).foldl Draft.take Draft.blank
  draft.kept.reverse

end CommandLine

end OcScript

------------------------------------------------------------
-- Sessions
------------------------------------------------------------

namespace OcScript

namespace CommandLine

/- The lines of a session that hold more than white space. -/
def sessionLines
    (input : String) :
    List String :=
  let lines := (splitLines input.toList).map takeBack
  let spoken := lines.filter fun line =>
    !line.all isWhiteSpace
  spoken.map String.ofList

end CommandLine

end OcScript
