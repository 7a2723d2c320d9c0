/-
  This file defines folders of files held in memory and how
  paths are looked up in them.

  Key definitions include:
    * `OcScript.CommandLine.ReadError`
    * `OcScript.CommandLine.Folder`
    * `OcScript.CommandLine.Place.follow`
    * `OcScript.CommandLine.Folder.read`
-/

------------------------------------------------------------
-- Reading Files
------------------------------------------------------------

namespace OcScript

namespace CommandLine

/- Why the text of a file cannot be read. -/
inductive ReadError where
| missing
| directory
| notDirectory
| notText
deriving DecidableEq, Repr

namespace ReadError

/- The cause as it is reported. -/
def cause : ReadError → String
| missing => "No such file or directory (os error 2)"
| directory => "Is a directory (os error 21)"
| notDirectory => "Not a directory (os error 20)"
| notText => "stream did not contain valid UTF-8"

end ReadError

/- Take bytes that were read as text. -/
def textOf
    (bytes : ByteArray) :
    Except ReadError String :=
  match String.fromUTF8? bytes with
  | some text => .ok text
  | none => .error .notText

end CommandLine

end OcScript

------------------------------------------------------------
-- Folders
------------------------------------------------------------

namespace OcScript

namespace CommandLine

/- The files of a folder by their names. -/
abbrev Folder :=
  List (String × ByteArray)

namespace Folder

/- The contents of the file below the folder, if any. -/
def fileAt
    (folder : Folder)
    (names : List String) :
    Option ByteArray :=
  folder.lookup ("/".intercalate names)

/- Whether some file is deeper below the folder. -/
def leadsOn
    (folder : Folder)
    (names : List String) :
    Bool :=
  folder.any fun (file, _) =>
    ("/".intercalate names ++ "/").isPrefixOf file

end Folder

end CommandLine

end OcScript

------------------------------------------------------------
-- Paths
------------------------------------------------------------

namespace OcScript

namespace CommandLine

/-
  Where a path has led: out of the folder, or to what has
  some names below it.
-/
inductive Place where
| outside
| below (names : List String)
deriving DecidableEq, Repr

namespace Place

/- Where a path begins. -/
def start
    (path : String) :
    Place :=
  if "/".isPrefixOf path then .outside else .below []

/- The place that holds a place. -/
def parent : Place → Place
| outside | below [] => outside
| below names => below names.dropLast

/- The contents at a place, if it is a file. -/
def contents
    (folder : Folder) :
    Place → Option ByteArray
| outside => none
| below names => folder.fileAt names

/- The place a name leads to. -/
def enter
    (folder : Folder)
    (name : String) :
    Place → Except ReadError Place
| outside => .error .missing
| below names =>
    let names := names ++ [name]
    if (folder.fileAt names).isSome ∨ folder.leadsOn names
    then .ok (below names)
    else .error .missing

/-
  Follow one part of a path.  Nothing leads on from a file,
  not even an empty part or a dot.
-/
def follow
    (folder : Folder)
    (place : Place)
    (part : String) :
    Except ReadError Place :=
  if (place.contents folder).isSome then
    .error .notDirectory
  else if part = "" ∨ part = "." then
    .ok place
  else if part = ".." then
    .ok place.parent
  else
    place.enter folder part

end Place

namespace Folder

/-
  Read the text of the file at a path.  Outside the folder
  there is nothing to be found.
-/
def read
    (folder : Folder)
    (path : String) :
    Except ReadError String := do
  if path = "" then
    throw .missing
  let place ←
    (path.splitOn "/").foldlM (Place.follow folder)
      (Place.start path)
  match place.contents folder with
  | some bytes => textOf bytes
  | none => throw .directory

end Folder

end CommandLine

end OcScript
