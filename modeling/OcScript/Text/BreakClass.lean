import OcScript.Text.Conjunct
import OcScript.Text.Extend
import OcScript.Text.Pictographic
import OcScript.Text.SpacingMark

/-
  This file sorts characters into the classes that decide
  where a text may be broken between two of them.

  Key definitions include:
    * `OcScript.Text.BreakClass`
    * `OcScript.Text.BreakClass.ofChar`
-/

------------------------------------------------------------
-- Short Tables
------------------------------------------------------------

namespace OcScript

namespace Text

/- Controls other than the two that make a line end. -/
def control : Ranges :=
  [(0x0, 0x9), (0xB, 0xC), (0xE, 0x1F), (0x7F, 0x9F),
   (0xAD, 0xAD), (0x61C, 0x61C), (0x180E, 0x180E),
   (0x200B, 0x200B), (0x200E, 0x200F), (0x2028, 0x202E),
   (0x2060, 0x206F), (0xFEFF, 0xFEFF), (0xFFF0, 0xFFFB),
   (0x13430, 0x1343F), (0x1BCA0, 0x1BCA3),
   (0x1D173, 0x1D17A), (0xE0000, 0xE001F),
   (0xE0080, 0xE00FF), (0xE01F0, 0xE0FFF)]

/- Signs that are written before what they belong to. -/
def prepended : Ranges :=
  [(0x600, 0x605), (0x6DD, 0x6DD), (0x70F, 0x70F),
   (0x890, 0x891), (0x8E2, 0x8E2), (0xD4E, 0xD4E),
   (0x110BD, 0x110BD), (0x110CD, 0x110CD),
   (0x111C2, 0x111C3), (0x113D1, 0x113D1),
   (0x1193F, 0x1193F), (0x11941, 0x11941),
   (0x11A84, 0x11A89), (0x11D46, 0x11D46),
   (0x11F02, 0x11F02)]

/- The letters whose pairs make flags. -/
def regional : Ranges :=
  [(0x1F1E6, 0x1F1FF)]

/- The letters that begin a syllable of Hangul. -/
def leadingLetter : Ranges :=
  [(0x1100, 0x115F), (0xA960, 0xA97C)]

/- The vowels of Hangul, and signs that act like them. -/
def vowelLetter : Ranges :=
  [(0x1160, 0x11A7), (0xD7B0, 0xD7C6), (0x16D63, 0x16D63),
   (0x16D67, 0x16D6A)]

/- The letters that close a syllable of Hangul. -/
def trailingLetter : Ranges :=
  [(0x11A8, 0x11FF), (0xD7CB, 0xD7FB)]

/- The syllables of Hangul that are one character. -/
def syllable : Ranges :=
  [(0xAC00, 0xD7A3)]

end Text

end OcScript

------------------------------------------------------------
-- Break Classes
------------------------------------------------------------

namespace OcScript

namespace Text

/-
  What a character is when a text is cut into clusters.  An
  open syllable ends with its vowel and a closed one with a
  consonant.
-/
inductive BreakClass where
| carriageReturn
| lineFeed
| control
| extend
| linker
| joiner
| nonJoiner
| spacingMark
| prepended
| regional
| pictograph
| consonant
| leading
| vowel
| trailing
| openSyllable
| closedSyllable
| other
deriving DecidableEq, Repr

namespace BreakClass

/-
  The classes that tables give.  A linker also extends and
  so do the two joiners, which is why they come first.
-/
def table : List (BreakClass × Ranges) :=
  [(.carriageReturn, [(0xD, 0xD)]),
   (.lineFeed, [(0xA, 0xA)]),
   (.nonJoiner, [(0x200C, 0x200C)]),
   (.joiner, [(0x200D, 0x200D)]),
   (.linker, Text.linker),
   (.control, Text.control),
   (.extend, Text.extend),
   (.spacingMark, Text.spacingMark),
   (.prepended, Text.prepended),
   (.regional, Text.regional),
   (.pictograph, Text.pictographic),
   (.consonant, Text.consonant),
   (.leading, leadingLetter),
   (.vowel, vowelLetter),
   (.trailing, trailingLetter)]

/-
  The class of a character.  The syllables of Hangul come in
  rows of 28, an open one before its closed ones.
-/
def ofChar
    (c : Char) :
    BreakClass :=
  let n := c.toNat
  if syllable.has n then
    if (n - 0xAC00) % 28 = 0 then
      .openSyllable
    else
      .closedSyllable
  else
    match table.find? fun (_, ranges) => ranges.has n with
    | some (found, _) => found
    | none => .other

end BreakClass

end Text

end OcScript
