import Std.Data.ExtTreeMap

/-
  This file reads maps from strings to strings written as
  JSON objects.

  Reading has two stages.  The text is first cut into
  items: braces, colons, commas, and strings with their
  escapes resolved.  No other item can occur in an object
  all of whose values are strings.  The items are then read
  as the members of one object.

  Key definitions include:
    * `OcScript.StringMap`
    * `OcScript.StringMap.Item`
    * `OcScript.StringMap.items?`
    * `OcScript.StringMap.members?`
    * `OcScript.StringMap.ofText?`
-/

------------------------------------------------------------
-- Items
------------------------------------------------------------

namespace OcScript

/- Finite maps from strings to strings. -/
abbrev StringMap :=
  Std.ExtTreeMap String String

namespace StringMap

/- A lexical item of an object of strings. -/
inductive Item where
| openBrace
| closeBrace
| colon
| comma
| text (content : String)
deriving DecidableEq, Repr

/- The characters that may separate items. -/
def isBlank
    (c : Char) :
    Bool :=
  c = ' ' ∨ c = '\t' ∨ c = '\r' ∨ c = '\n'

/- The value of a hexadecimal digit of either case. -/
def hexDigit?
    (c : Char) :
    Option Nat :=
  if '0' ≤ c ∧ c ≤ '9' then
    some (c.toNat - '0'.toNat)
  else if 'a' ≤ c ∧ c ≤ 'f' then
    some (c.toNat - 'a'.toNat + 10)
  else if 'A' ≤ c ∧ c ≤ 'F' then
    some (c.toNat - 'A'.toNat + 10)
  else
    none

/- The value of four hexadecimal digits. -/
def unit?
    (a b c d : Char) :
    Option Nat := do
  let a ← hexDigit? a
  let b ← hexDigit? b
  let c ← hexDigit? c
  let d ← hexDigit? d
  return ((a * 16 + b) * 16 + c) * 16 + d

/- The first half of a surrogate pair. -/
def isHighSurrogate
    (unit : Nat) :
    Bool :=
  0xD800 ≤ unit ∧ unit < 0xDC00

/- The second half of a surrogate pair. -/
def isLowSurrogate
    (unit : Nat) :
    Bool :=
  0xDC00 ≤ unit ∧ unit < 0xE000

/- The character denoted by a surrogate pair. -/
def ofSurrogates
    (high low : Nat) :
    Char :=
  Char.ofNat
    (0x10000 + (high - 0xD800) * 0x400 + (low - 0xDC00))

/- The character denoted by a one-letter escape. -/
def escape? : Char → Option Char
| '"' => some '"'
| '\\' => some '\\'
| '/' => some '/'
| 'b' => some '\x08'
| 'f' => some '\x0c'
| 'n' => some '\n'
| 'r' => some '\r'
| 't' => some '\t'
| _ => none

mutual

/-
  Cut a text into items.  There are none if some character
  belongs to no item.
-/
def items? : List Char → Option (List Item)
| [] => some []
| '"' :: rest => textItem? [] rest
| '{' :: rest => (items? rest).map (.openBrace :: ·)
| '}' :: rest => (items? rest).map (.closeBrace :: ·)
| ':' :: rest => (items? rest).map (.colon :: ·)
| ',' :: rest => (items? rest).map (.comma :: ·)
| c :: rest => if isBlank c then items? rest else none

/-
  Cut the rest of a text that stands inside a string whose
  characters so far are `seen`, latest first.  Control
  characters must be escaped, and the two halves of a
  surrogate pair must stand together.
-/
def textItem?
    (seen : List Char) :
    List Char → Option (List Item)
| [] => none
| '"' :: rest =>
    (items? rest).map
      (.text (String.ofList seen.reverse) :: ·)
| '\\' :: 'u' :: a :: b :: c :: d :: rest =>
    match unit? a b c d with
    | none => none
    | some unit =>
        if isHighSurrogate unit then
          match rest with
          | '\\' :: 'u' :: e :: f :: g :: h :: rest =>
              match unit? e f g h with
              | none => none
              | some low =>
                  if isLowSurrogate low then
                    textItem?
                      (ofSurrogates unit low :: seen) rest
                  else
                    none
          | _ => none
        else if isLowSurrogate unit then
          none
        else
          textItem? (Char.ofNat unit :: seen) rest
| '\\' :: c :: rest =>
    match escape? c with
    | none => none
    | some escaped => textItem? (escaped :: seen) rest
| c :: rest =>
    if c.toNat < 0x20 ∨ c = '\\' then
      none
    else
      textItem? (c :: seen) rest

end

end StringMap

end OcScript

------------------------------------------------------------
-- Members
------------------------------------------------------------

namespace OcScript

namespace StringMap

/-
  Read the members of an object up to its closing brace,
  which must be the last item.
-/
def membersFrom? :
    List Item → Option (List (String × String))
| [.text name, .colon, .text value, .closeBrace] =>
    some [(name, value)]
| .text name :: .colon :: .text value :: .comma :: rest =>
    (membersFrom? rest).map ((name, value) :: ·)
| _ => none

/- Read the members of an object in the order given. -/
def members? :
    List Item → Option (List (String × String))
| [.openBrace, .closeBrace] => some []
| .openBrace :: rest => membersFrom? rest
| _ => none

/- The map of a list of members; later members win. -/
def ofMembers
    (members : List (String × String)) :
    StringMap :=
  members.foldl (fun map (name, value) =>
    map.insert name value) ∅

/- Read a text as a map from strings to strings. -/
def ofText?
    (text : String) :
    Option StringMap := do
  let items ← items? text.toList
  let members ← members? items
  return ofMembers members

end StringMap

end OcScript
