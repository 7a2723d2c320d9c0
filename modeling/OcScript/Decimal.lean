/-
  This file defines decimal numerals and the shortest
  decimal numeral of a floating-point number.

  A numeral is written positionally, with no exponent mark,
  and read back to the nearest floating-point number.  The
  shortest numeral of a number is searched on the decimal
  grids of one to seventeen digits: on each grid only the
  two neighbours of the number can be the nearest point
  that reads back as the number, so only those are tried.

  Key definitions include:
    * `OcScript.Decimal`
    * `OcScript.Decimal.ofText`
    * `OcScript.Decimal.toText`
    * `OcScript.Decimal.toFloat`
    * `OcScript.Decimal.ReadsBack`
    * `OcScript.Magnitude`
    * `OcScript.Decimal.shortest`
-/

------------------------------------------------------------
-- Numerals
------------------------------------------------------------

namespace OcScript

/-
  The decimal number `digits * 10 ^ exponent`.
-/
structure Decimal where
  digits : Nat
  exponent : Int
deriving DecidableEq, Repr

namespace Decimal

/-
  The decimal denoted by digits, optionally followed by a
  point and further digits.
-/
def ofText
    (text : List Char) :
    Decimal :=
  let whole := text.takeWhile Char.isDigit
  let fraction := (text.dropWhile Char.isDigit).drop 1
  { digits := Nat.ofDigitChars 10 (whole ++ fraction) 0
    exponent := - (fraction.length : Int) }

/-
  Write a decimal positionally: zeros fill the places
  between its digits and the point.
-/
def toText
    (d : Decimal) :
    List Char :=
  let digits := Nat.toDigits 10 d.digits
  let places := (- d.exponent).toNat
  if places = 0 then
    digits ++ List.replicate d.exponent.toNat '0'
  else if places < digits.length then
    let whole := digits.length - places
    digits.take whole ++ '.' :: digits.drop whole
  else
    '0' :: '.' ::
      List.replicate (places - digits.length) '0' ++ digits

/- The floating-point number nearest to a decimal. -/
def toFloat
    (d : Decimal) :
    Float :=
  Float.ofScientific
    d.digits (d.exponent < 0) d.exponent.natAbs

/-
  The written form of `d` is read as exactly the number
  `x`.
-/
def ReadsBack
    (d : Decimal)
    (x : Float) :
    Prop :=
  (ofText d.toText).toFloat.toBits = x.toBits

instance
    (d : Decimal)
    (x : Float) :
    Decidable (d.ReadsBack x) := by
  unfold ReadsBack
  infer_instance

/- Drop the trailing zeros of the digits. -/
def trim
    (d : Decimal) :
    Decimal :=
  if d.digits ≠ 0 ∧ d.digits % 10 = 0 then
    trim ⟨d.digits / 10, d.exponent + 1⟩
  else
    d
termination_by d.digits

end Decimal

end OcScript

------------------------------------------------------------
-- Binary Magnitudes
------------------------------------------------------------

namespace OcScript

/-
  The number `significand * 2 ^ exponent`, the exact value
  of a finite floating-point number without its sign.
-/
structure Magnitude where
  significand : Nat
  exponent : Int
deriving DecidableEq, Repr

namespace Magnitude

/-
  The magnitude of a finite number.  Fields of zero exponent
  hold the subnormal numbers, which have no leading bit.
-/
def ofFloat
    (x : Float) :
    Magnitude :=
  let bits := x.toBits.toNat % Nat.pow 2 63
  let fraction := bits % Nat.pow 2 52
  match bits / Nat.pow 2 52 with
  | 0 => ⟨fraction, -1074⟩
  | scale + 1 =>
      ⟨Nat.pow 2 52 + fraction, (scale : Int) - 1074⟩

/- The numerator of the magnitude as a fraction. -/
def numerator
    (m : Magnitude) :
    Nat :=
  m.significand * Nat.pow 2 m.exponent.toNat

/- The denominator of the magnitude as a fraction. -/
def denominator
    (m : Magnitude) :
    Nat :=
  Nat.pow 2 (- m.exponent).toNat

/-
  The decimal place of the leading digit: the greatest `p`
  for which `10 ^ p` is at most the magnitude.
-/
def leadingPlace
    (m : Magnitude) :
    Int :=
  let top := m.numerator
  let bottom := m.denominator
  if bottom ≤ top then
    (Nat.toDigits 10 (top / bottom)).length - 1
  else
    - (Nat.toDigits 10 ((bottom - 1) / top)).length

/- The magnitude written out as a decimal with every digit. -/
def toDecimal
    (m : Magnitude) :
    Decimal :=
  if m.exponent < 0 then
    ⟨m.significand * Nat.pow 5 m.exponent.natAbs,
      m.exponent⟩
  else
    ⟨m.numerator, 0⟩

/-
  The two multiples of `10 ^ place` around the magnitude,
  the nearer one first.  Halfway between them, the greater
  one counts as the nearer.
-/
def neighbours
    (m : Magnitude)
    (place : Int) :
    List Decimal :=
  let top := m.numerator * Nat.pow 10 (- place).toNat
  let bottom := m.denominator * Nat.pow 10 place.toNat
  let below : Decimal := ⟨top / bottom, place⟩
  let above : Decimal := ⟨top / bottom + 1, place⟩
  if 2 * (top % bottom) < bottom then
    [below, above]
  else
    [above, below]

end Magnitude

end OcScript

------------------------------------------------------------
-- Shortest Numerals
------------------------------------------------------------

namespace OcScript

namespace Decimal

/-
  A numeral of at most `count` digits that reads back as
  `x`, if either neighbour of `x` on that grid does.
-/
def withDigits?
    (x : Float)
    (count : Nat) :
    Option Decimal :=
  let m := Magnitude.ofFloat x
  let place := m.leadingPlace + 1 - count
  (m.neighbours place).map trim |>.find? fun d =>
    decide (d.ReadsBack x)

/-
  The numeral with the fewest digits that reads back as the
  positive finite number `x`, the nearest one of those.
  Seventeen digits always tell two numbers apart.
-/
def shortest
    (x : Float) :
    Decimal :=
  ((List.range 17).findSome? fun n =>
      withDigits? x (n + 1)).getD
    (Magnitude.ofFloat x).toDecimal

end Decimal

end OcScript
