import OcScript.Proofs.Number.Numeral
import OcScript.Value

/-
  This file proves that the text of a finite number is read
  as that number again.

  The shortest numeral reads back because it was searched
  for that; the numeral that stands in for it when the
  search fails is the exact value of the number.  A minus is
  not part of a numeral, so a negative number is written
  behind one, and changing the sign twice changes nothing.

  Key theorems include:
    * `OcScript.Magnitude.value_toDecimal`
    * `OcScript.Decimal.toFloat_shortest`
    * `OcScript.Value.numberText_readsBack`
    * `OcScript.Value.numberText_negative`
-/

------------------------------------------------------------
-- Shortest Numerals Read Back
------------------------------------------------------------

namespace OcScript

/- The exact decimal of a magnitude has its value. -/
theorem Magnitude.value_toDecimal
    (m : Magnitude) :
    m.toDecimal.value = m.value := by
  unfold toDecimal
  split
  case isTrue hNeg =>
    have hAbs : (m.exponent.natAbs : Int) = -m.exponent := by
      omega
    simp only [Decimal.value, value, Nat.pow_eq]
    push_cast
    rw [Binary64.ten_zpow, ← zpow_natCast, hAbs, zpow_neg]
    field_simp
  case isFalse hNeg =>
    have hExp : (m.exponent.toNat : Int) = m.exponent := by
      omega
    simp only [Decimal.value, value, numerator, Nat.pow_eq]
    push_cast
    rw [← zpow_natCast, hExp, mul_one]

namespace Decimal

open Float.Model (UnpackedFloat)
open Float.Model.UnpackedFloat
open Binary64

/- A numeral that was found reads back. -/
theorem readsBack_of_withDigits?
    {x : Float}
    {count : Nat}
    {d : Decimal}
    (hFound : withDigits? x count = some d) :
    d.ReadsBack x := by
  have hReads := List.find?_some hFound
  simpa using hReads

/- The text of a decimal is read as its value. -/
theorem toFloat_ofText_toText
    {d : Decimal}
    {q : Magnitude}
    (hFits : q.Fits)
    (hValue : d.value = q.value) :
    (ofText d.toText).toFloat =
      ofParts (.finite .positive q.significand q.exponent
        hFits.pos) := by
  obtain ⟨e, hDenotes, hSame⟩ := exists_denotes_toText d
  rw [ofText_of_denotes hDenotes]
  exact toFloat_eq_ofParts hFits (hSame.trans hValue)

/- The shortest numeral of a positive number reads back. -/
theorem toFloat_shortest
    {x : Float}
    {M : Nat}
    {E : Int}
    {hPos : 0 < M}
    (hParts : parts x = .finite .positive M E hPos) :
    (ofText (shortest x).toText).toFloat = x := by
  unfold shortest
  cases hFound : (List.range 17).findSome? fun n =>
      withDigits? x (n + 1) with
  | some d =>
      obtain ⟨n, -, hDigits⟩ :=
        List.exists_of_findSome?_eq_some hFound
      exact Float.toBits_inj.mp
        (readsBack_of_withDigits? hDigits)
  | none =>
      have hFits := fits_of_parts hParts
      have hValue :=
        Magnitude.value_toDecimal (Magnitude.ofFloat x)
      rw [magnitude_of_parts hParts] at hValue
      rw [Option.getD_none, magnitude_of_parts hParts,
        toFloat_ofText_toText hFits hValue]
      dsimp only
      rw [← hParts, ofParts_parts]

end Decimal

end OcScript

------------------------------------------------------------
-- Changing the Sign
------------------------------------------------------------

namespace OcScript

namespace Binary64

open Float.Model (UnpackedFloat)
open Float.Model.UnpackedFloat

variable {x : Float}
variable {s : Sign}
variable {M : Nat}
variable {E : Int}
variable {hPos : 0 < M}
variable (hParts : parts x = .finite s M E hPos)
include hParts

theorem parts_neg :
    parts (-x) = .finite (-s) M E hPos := by
  change parts (ofParts (neg (parts x))) = _
  rw [hParts]
  exact parts_ofParts (-s) (fits_of_parts hParts)

/- Two changes of sign undo each other. -/
theorem neg_neg_of_parts :
    - -x = x := by
  have hSign : - -s = s := by cases s <;> rfl
  apply parts_injective
  rw [parts_neg (parts_neg hParts), hParts, hSign]

end Binary64

end OcScript

------------------------------------------------------------
-- Texts of Numbers
------------------------------------------------------------

namespace OcScript

namespace Binary64

open Float.Model (UnpackedFloat)
open Float.Model.UnpackedFloat

/- A finite number is zero, positive, or negative. -/
theorem cases_of_isFinite
    {x : Float}
    (hFinite : x.isFinite) :
    (∃ s, parts x = .zero s) ∨
      (∃ M E hPos, parts x = .finite .positive M E hPos) ∨
      ∃ M E hPos, parts x = .finite .negative M E hPos := by
  change (parts x).isFinite = true at hFinite
  cases hParts : parts x with
  | notANumber =>
      rw [hParts] at hFinite
      cases hFinite
  | infinity s =>
      rw [hParts] at hFinite
      cases hFinite
  | zero s =>
      exact Or.inl ⟨s, rfl⟩
  | finite s M E hPos =>
      cases s with
      | positive => exact Or.inr (Or.inl ⟨M, E, hPos, rfl⟩)
      | negative => exact Or.inr (Or.inr ⟨M, E, hPos, rfl⟩)

theorem parts_zero :
    parts 0 = .zero .positive :=
  rfl

theorem beq_zero
    (x : Float) :
    (x == 0) = (parts x).beq (.zero .positive) := by
  rw [← parts_zero]
  rfl

theorem lt_zero_iff
    (x : Float) :
    x < 0 ↔ (parts x).lt (.zero .positive) = true := by
  change decide ((parts x).lt (parts 0) = true) = true ↔ _
  rw [parts_zero, decide_eq_true_iff]

theorem zero_lt_iff
    (x : Float) :
    0 < x ↔
      UnpackedFloat.lt (.zero .positive) (parts x) =
        true := by
  change decide (UnpackedFloat.lt (parts 0) (parts x) =
    true) = true ↔ _
  rw [parts_zero, decide_eq_true_iff]

end Binary64

namespace Value

open Float.Model (UnpackedFloat)
open Float.Model.UnpackedFloat
open Binary64

/- The text of a number depends on its parts. -/
theorem numberText_eq
    (x : Float) :
    numberText x =
      match parts x with
      | .notANumber => "NaN"
      | .infinity .positive => "Infinity"
      | .infinity .negative => "-Infinity"
      | .zero _ => "0"
      | .finite .positive _ _ _ =>
          String.ofList (Decimal.shortest x).toText
      | .finite .negative _ _ _ =>
          String.ofList
            ('-' :: (Decimal.shortest (-x)).toText) := by
  have hText :
      numberText x =
        if (parts x).isNaN then
          "NaN"
        else if (parts x).isInf then
          if UnpackedFloat.lt (.zero .positive)
              (parts x) then
            "Infinity"
          else
            "-Infinity"
        else if (parts x).beq (.zero .positive) then
          "0"
        else if (parts x).lt (.zero .positive) then
          String.ofList
            ('-' :: (Decimal.shortest (-x)).toText)
        else
          String.ofList (Decimal.shortest x).toText := by
    simp only [numberText, gt_iff_lt, beq_zero, lt_zero_iff,
      zero_lt_iff]
    rfl
  rw [hText]
  cases parts x with
  | notANumber => rfl
  | infinity s => cases s <;> rfl
  | zero s => cases s <;> rfl
  | finite s M E hPos => cases s <;> rfl

/- Both zeros are written alike. -/
theorem numberText_zero
    {x : Float}
    {s : Sign}
    (hParts : parts x = .zero s) :
    numberText x = "0" := by
  rw [numberText_eq, hParts]

theorem numberText_of_beq_zero
    {x : Float}
    (hZero : x == 0) :
    numberText x = "0" := by
  rw [beq_zero] at hZero
  cases hParts : parts x with
  | zero s => exact numberText_zero hParts
  | notANumber =>
      rw [hParts] at hZero
      cases hZero
  | infinity s =>
      rw [hParts] at hZero
      cases s <;> cases hZero
  | finite s M E hPos =>
      rw [hParts] at hZero
      cases s <;> cases hZero

theorem numberText_infinity
    {x : Float}
    (hParts : parts x = .infinity .positive) :
    numberText x = "Infinity" := by
  rw [numberText_eq, hParts]

/- The text of zero denotes zero. -/
theorem denotes_zero :
    ∃ d, Decimal.Denotes "0".toList d ∧ d.toFloat = 0 :=
  ⟨⟨0, 0⟩,
    .whole
      ⟨by decide, List.forall_mem_singleton.mpr (by decide)⟩,
    parts_injective rfl⟩

/- The text of a positive number is read as that number. -/
theorem denotes_positive
    {x : Float}
    {M : Nat}
    {E : Int}
    {hPos : 0 < M}
    (hParts : parts x = .finite .positive M E hPos) :
    ∃ d,
      Decimal.Denotes (numberText x).toList d ∧
      d.toFloat = x := by
  obtain ⟨d, hDenotes, -⟩ :=
    Decimal.exists_denotes_toText (Decimal.shortest x)
  refine ⟨d, ?_, ?_⟩
  · rwa [numberText_eq, hParts, String.toList_ofList]
  · rw [← Decimal.ofText_of_denotes hDenotes]
    exact Decimal.toFloat_shortest hParts

/-
  The text of a finite number without a minus denotes a
  decimal that is read as this number.
-/
theorem numberText_readsBack
    {x : Float}
    (hUnsigned : Unsigned (parts x))
    (hFinite : x.isFinite) :
    ∃ d,
      Decimal.Denotes (numberText x).toList d ∧
      d.toFloat = x := by
  rcases cases_of_isFinite hFinite with
    ⟨s, hParts⟩ | ⟨M, E, hPos, hParts⟩ |
      ⟨M, E, hPos, hParts⟩
  · rw [hParts] at hUnsigned
    obtain rfl : s = .positive := hUnsigned
    obtain rfl : x = 0 := parts_injective hParts
    rw [numberText_zero hParts]
    exact denotes_zero
  · exact denotes_positive hParts
  · rw [hParts] at hUnsigned
    cases (hUnsigned : Sign.negative = .positive)

/- A negative number is written as its opposite. -/
theorem numberText_negative
    {x : Float}
    {M : Nat}
    {E : Int}
    {hPos : 0 < M}
    (hParts : parts x = .finite .negative M E hPos) :
    numberText x = "-" ++ numberText (-x) := by
  have hOpposite : parts (-x) = .finite .positive M E hPos :=
    parts_neg hParts
  rw [numberText_eq x, numberText_eq (-x), hParts,
    hOpposite]
  exact String.ofList_cons

theorem isFinite_or_infinity
    {x : Float}
    (hUnsigned : Unsigned (parts x)) :
    x.isFinite ∨ parts x = .infinity .positive := by
  change (parts x).isFinite = true ∨ _
  cases hParts : parts x with
  | notANumber =>
      rw [hParts] at hUnsigned
      exact hUnsigned.elim
  | infinity s =>
      rw [hParts] at hUnsigned
      obtain rfl : s = .positive := hUnsigned
      exact Or.inr rfl
  | zero s => exact Or.inl rfl
  | finite s M E hPos => exact Or.inl rfl

end Value

end OcScript
