import OcScript.Decimal

/-
  This file defines the values that programs compute with,
  their truth, their equality, and their text.

  Key definitions include:
    * `OcScript.Value`
    * `OcScript.Value.truthy`
    * `OcScript.Value.equals`
    * `OcScript.Value.typeName`
    * `OcScript.Value.text`
-/

------------------------------------------------------------
-- Values
------------------------------------------------------------

namespace OcScript

/-
  A value is a string, a number, a truth value, or null.
-/
inductive Value where
| str (text : String)
| num (number : Float)
| bool (truth : Bool)
| null
deriving DecidableEq, Repr, Inhabited

namespace Value

/- Null and false are falsy; every other value is truthy. -/
def truthy : Value → Bool
| .null => false
| .bool b => b
| .num _ => true
| .str _ => true

/- The name of the kind of a value. -/
def typeName : Value → String
| .str _ => "string"
| .num _ => "number"
| .bool _ => "boolean"
| .null => "null"

/-
  Equality as programs see it.  Values of different kinds
  are never equal, and numbers compare as floating-point
  numbers: the zeros agree and NaN differs from itself.
-/
def equals : Value → Value → Bool
| .str s, .str t => s == t
| .num x, .num y => x == y
| .bool b, .bool c => b == c
| .null, .null => true
| _, _ => false

end Value

end OcScript

------------------------------------------------------------
-- Text of Values
------------------------------------------------------------

namespace OcScript

namespace Value

/-
  The text of a number: the shortest numeral that reads
  back, with a leading minus for negative numbers.  Both
  zeros are written alike.
-/
def numberText
    (x : Float) :
    String :=
  if x.isNaN then
    "NaN"
  else if x.isInf then
    if x > 0 then "Infinity" else "-Infinity"
  else if x == 0 then
    "0"
  else if x < 0 then
    String.ofList ('-' :: (Decimal.shortest (-x)).toText)
  else
    String.ofList (Decimal.shortest x).toText

/- The text of a truth value. -/
def boolText : Bool → String
| true => "true"
| false => "false"

/- The text that printing a value writes. -/
def text : Value → String
| .str s => s
| .num x => numberText x
| .bool b => boolText b
| .null => "nul"

end Value

end OcScript
