/-
  This file defines sets of characters given by the ranges
  of their code points.

  Key definitions include:
    * `OcScript.Text.Ranges`
    * `OcScript.Text.Ranges.has`
-/

------------------------------------------------------------
-- Ranges
------------------------------------------------------------

namespace OcScript

namespace Text

/-
  Ranges of code points, in ascending order, each by its
  first and its last.
-/
abbrev Ranges :=
  List (Nat × Nat)

namespace Ranges

/-
  Whether a code point is in one of the ranges.  The ranges
  ascend, so none after the first that begins beyond the
  code point can hold it.
-/
def has
    (n : Nat) :
    Ranges → Bool
| [] => false
| (first, last) :: rest =>
    if n < first then false
    else if n ≤ last then true
    else has n rest

end Ranges

end Text

end OcScript
