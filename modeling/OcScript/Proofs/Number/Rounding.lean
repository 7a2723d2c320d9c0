import OcScript.Proofs.Number.Packing
import Mathlib.Algebra.Order.Field.Power
import Mathlib.Algebra.Order.Ring.Rat
import Mathlib.Tactic.Positivity
import Mathlib.Tactic.Ring

/-
  This file proves that rounding does nothing to a number
  that needs no rounding.

  Magnitudes are compared by the exact numbers they stand
  for.  Among those of one value, a greater exponent is paid
  for with trailing zeros, and the one that fits has the
  greatest.  So rounding to it drops zeros only, and a
  product or a quotient that fits is found exactly.

  Key definitions include:
    * `OcScript.Magnitude.value`
    * `OcScript.Magnitude.top`

  Key theorems include:
    * `OcScript.Magnitude.top_eq`
    * `OcScript.Magnitude.significand_eq`
    * `OcScript.Binary64.round_exact`
    * `OcScript.Binary64.mul_exact`
    * `OcScript.Binary64.divCore_exact`
    * `OcScript.Binary64.div_exact`
-/


------------------------------------------------------------
-- Exact Values
------------------------------------------------------------

namespace OcScript

namespace Magnitude

open Float.Model (totalExponent)

/- The exact number that a magnitude stands for. -/
def value
    (m : Magnitude) :
    ℚ :=
  m.significand * 2 ^ m.exponent

/- The place in front of the leading bit. -/
def top
    (m : Magnitude) :
    Int :=
  totalExponent m.significand m.exponent

variable {m n : Magnitude}

theorem value_pos
    (hPos : 0 < m.significand) :
    0 < m.value := by
  have hCast : (0 : ℚ) < m.significand := by
    exact_mod_cast hPos
  exact mul_pos hCast (by positivity)

theorem value_lt_two_zpow_top
    (m : Magnitude) :
    m.value < 2 ^ m.top := by
  have hLog :
      (m.significand : ℚ) < 2 ^ (m.significand.log2 + 1) := by
    exact_mod_cast Nat.lt_log2_self
  calc
    m.value <
        2 ^ (m.significand.log2 + 1) * 2 ^ m.exponent :=
      mul_lt_mul_of_pos_right hLog (by positivity)
    _ = 2 ^ m.top := by
      rw [top, totalExponent, zpow_add₀ two_ne_zero]
      norm_cast

/- No place below the top is in front of every bit. -/
theorem top_le_of_value_lt
    {k : Int}
    (hPos : 0 < m.significand)
    (hValue : m.value < 2 ^ k) :
    m.top ≤ k := by
  have hLog :
      (2 ^ m.significand.log2 : ℚ) ≤ m.significand := by
    exact_mod_cast Nat.log2_self_le (by omega)
  have hLe : (2 : ℚ) ^ (m.top - 1) ≤ m.value :=
    calc
      (2 : ℚ) ^ (m.top - 1) =
          2 ^ m.significand.log2 * 2 ^ m.exponent := by
        rw [top, totalExponent, ← zpow_natCast,
          ← zpow_add₀ two_ne_zero]
        congr 1
        omega
      _ ≤ m.value :=
        mul_le_mul_of_nonneg_right hLog (by positivity)
  have hLt : m.top - 1 < k :=
    (zpow_lt_zpow_iff_right₀ one_lt_two).mp
      (hLe.trans_lt hValue)
  omega

/- Equal magnitudes have their leading bit in one place. -/
theorem top_eq
    (hValue : m.value = n.value)
    (hM : 0 < m.significand)
    (hN : 0 < n.significand) :
    m.top = n.top :=
  le_antisymm
    (top_le_of_value_lt hM
      (hValue ▸ n.value_lt_two_zpow_top))
    (top_le_of_value_lt hN
      (hValue ▸ m.value_lt_two_zpow_top))

/- Of two equal magnitudes, one ends in more zeros. -/
theorem significand_eq
    (hValue : m.value = n.value)
    (hLe : m.exponent ≤ n.exponent) :
    m.significand =
      n.significand *
        2 ^ (n.exponent - m.exponent).toNat := by
  have hExp :
      (2 : ℚ) ^ n.exponent =
        2 ^ (n.exponent - m.exponent).toNat *
          2 ^ m.exponent := by
    rw [← zpow_natCast, ← zpow_add₀ two_ne_zero]
    congr 1
    omega
  rw [value, value, hExp, ← mul_assoc] at hValue
  exact_mod_cast
    mul_right_cancel₀ (by positivity) hValue

/- Zeros at the end make up for a smaller exponent. -/
theorem value_shift
    (significand k : Nat)
    (exponent : Int) :
    value ⟨significand * 2 ^ k, exponent - k⟩ =
      value ⟨significand, exponent⟩ := by
  simp only [value]
  push_cast
  rw [mul_assoc, ← zpow_natCast, ← zpow_add₀ two_ne_zero]
  congr 2
  omega

theorem value_mul
    (m n : Magnitude) :
    value ⟨m.significand * n.significand,
        m.exponent + n.exponent⟩ =
      m.value * n.value := by
  have hTwo : (2 : ℚ) ≠ 0 := two_ne_zero
  simp only [value, zpow_add₀ hTwo]
  push_cast
  ring

namespace Fits

theorem top_le
    (hFits : n.Fits) :
    n.top ≤ n.exponent + 53 := by
  have hLog : n.significand.log2 < 53 :=
    (Nat.log2_lt hFits.pos.ne').mpr hFits.lt
  rw [top, totalExponent]
  omega

/-
  A magnitude with all the leading bits is not equal to one
  that fits and has a smaller exponent.
-/
theorem exponent_le
    (hFits : n.Fits)
    (hValue : m.value = n.value)
    (hLead : 2 ^ 52 ≤ m.significand) :
    m.exponent ≤ n.exponent := by
  have hLog : 52 ≤ m.significand.log2 :=
    (Nat.le_log2 (by omega)).mpr hLead
  have hTop := hFits.top_le
  rw [← top_eq hValue (by omega) hFits.pos, top,
    totalExponent] at hTop
  omega

end Fits

end Magnitude

end OcScript

------------------------------------------------------------
-- Rounding What Fits
------------------------------------------------------------

namespace OcScript

namespace Binary64

open Float.Model (Format UnpackedFloat totalExponent)
open Float.Model.UnpackedFloat

theorem targetExponent_eq
    (t : Int) :
    Format.binary64.targetExponent t =
      max (t - 53) (-1074) := by
  simp only [Format.targetExponent]
  rfl

/- What fits has the exponent that rounding aims for. -/
theorem targetExponent_top
    {n : Magnitude}
    (hFits : n.Fits) :
    Format.binary64.targetExponent n.top = n.exponent := by
  have hLow := hFits.low
  have hTop := hFits.top_le
  rw [targetExponent_eq]
  rcases hFits.tight with hMin | hLead
  · omega
  · have hLog : 52 ≤ n.significand.log2 :=
      (Nat.le_log2 hFits.pos.ne').mpr hLead
    rw [Magnitude.top, totalExponent] at *
    omega

/- Zeros are shifted out without a trace. -/
theorem shiftRight_zeros
    (M k : Nat) :
    (ExtendedMantissa.mk (M * 2 ^ k) false false) >>> k =
      ExtendedMantissa.mk M false false := by
  induction k generalizing M with
  | zero =>
      simp [HShiftRight.hShiftRight, Nat.repeat]
  | succ k ih =>
      change ExtendedMantissa.shiftRightOne
        ((ExtendedMantissa.mk (M * 2 ^ (k + 1))
          false false) >>> k) = _
      rw [Nat.pow_succ', ← Nat.mul_assoc, ih]
      simp [ExtendedMantissa.shiftRightOne]

section Exact

variable {m n : Magnitude}
variable (hFits : n.Fits)
variable (hPos : 0 < m.significand)
variable (hValue : m.value = n.value)
variable (hLe : m.exponent ≤ n.exponent)
include hFits hPos hValue hLe

theorem shiftToTarget_exact :
    shiftToTargetExponent Format.binary64
        m.significand m.exponent .exact =
      (ExtendedMantissa.mk n.significand false false,
        n.exponent) := by
  have hTarget :
      Format.binary64.targetExponent
          (totalExponent m.significand m.exponent) =
        n.exponent := by
    rw [← targetExponent_top hFits,
      ← Magnitude.top_eq hValue hPos hFits.pos]
    rfl
  simp only [shiftToTargetExponent, shiftToExponent,
    hTarget, ExtendedMantissa.ofMantissaAndAccuracy]
  rw [Magnitude.significand_eq hValue hLe,
    shiftRight_zeros]
  congr 1
  omega

/-
  A magnitude equal to one that fits is rounded to that one.
  The second shift has nothing left to do.
-/
theorem round_exact
    (s : Sign) :
    roundWithAccuracy Format.binary64 s
        m.significand m.exponent .exact =
      .finite s n.significand n.exponent hFits.pos := by
  simp only [roundWithAccuracy,
    shiftToTarget_exact hFits hPos hValue hLe,
    ExtendedMantissa.roundedMantissa,
    ExtendedMantissa.accuracy,
    Accuracy.roundToNearestEven,
    shiftToTarget_exact hFits hFits.pos rfl le_rfl]
  exact dif_neg hFits.pos.ne'

end Exact

end Binary64

end OcScript

------------------------------------------------------------
-- Products and Quotients That Fit
------------------------------------------------------------

namespace OcScript

namespace Binary64

open Float.Model (Format UnpackedFloat totalExponent)
open Float.Model.UnpackedFloat

variable {a b q : Magnitude}
variable (hA : 0 < a.significand)
variable (hB : 0 < b.significand)
variable (hFits : q.Fits)
include hFits

/-
  A product that fits is exact.  It needs enough leading
  bits, since rounding cannot make an exponent smaller.
-/
theorem mul_exact
    (hLead : 2 ^ 52 ≤ a.significand * b.significand)
    (hValue : a.value * b.value = q.value) :
    mul Format.binary64
        (.finite .positive a.significand a.exponent hA)
        (.finite .positive b.significand b.exponent hB) =
      .finite .positive q.significand q.exponent
        hFits.pos := by
  have hProduct :=
    (Magnitude.value_mul a b).trans hValue
  exact round_exact hFits (Nat.mul_pos hA hB) hProduct
    (hFits.exponent_le hProduct hLead) .positive

include hA hB in
/- The leading bit of a quotient. -/
theorem top_sub_le
    (hValue : a.value = q.value * b.value) :
    a.top - b.top ≤ q.top := by
  have hLt : a.value < 2 ^ (q.top + b.top) := by
    rw [hValue, zpow_add₀ two_ne_zero]
    exact mul_lt_mul'' q.value_lt_two_zpow_top
      b.value_lt_two_zpow_top
      (Magnitude.value_pos hFits.pos).le
      (Magnitude.value_pos hB).le
  have hTop := Magnitude.top_le_of_value_lt hA hLt
  omega

include hA hB in
/-
  The numerator is shifted until the exponent of the
  quotient is small enough, and then no remainder is left.
-/
theorem divCore_exact
    (hValue : a.value = q.value * b.value) :
    ∃ j : Nat,
      divCore Format.binary64 a.significand a.exponent
          b.significand b.exponent =
        (q.significand * 2 ^ j, q.exponent - j,
          .exact) := by
  obtain ⟨t, hT⟩ : ∃ t, t =
      min (a.exponent - b.exponent)
        (Format.binary64.targetExponent
          (totalExponent a.significand a.exponent -
            totalExponent b.significand b.exponent)) :=
    ⟨_, rfl⟩
  simp only [divCore, ← hT]
  have hTop := top_sub_le hA hB hFits hValue
  have hTarget := targetExponent_top hFits
  simp only [Magnitude.top, targetExponent_eq]
    at hTop hTarget hT
  obtain ⟨j, hJ⟩ : ∃ j : Nat, t = q.exponent - j :=
    ⟨(q.exponent - t).toNat, by omega⟩
  obtain ⟨k, hK⟩ : ∃ k : Nat,
      a.exponent - b.exponent = t + k :=
    ⟨(a.exponent - b.exponent - t).toNat, by omega⟩
  have hShift : a.significand * 2 ^ k =
      b.significand * (q.significand * 2 ^ j) := by
    have hSame := Magnitude.value_shift a.significand k
      a.exponent
    have hQuotient := Magnitude.value_mul b
      ⟨q.significand * 2 ^ j, q.exponent - j⟩
    rw [Magnitude.value_shift, mul_comm b.value, ← hValue,
      show b.exponent + (q.exponent - j) = a.exponent - k
        by omega] at hQuotient
    simpa using Magnitude.significand_eq
      (hSame.trans hQuotient.symm) le_rfl
  refine ⟨j, ?_⟩
  rw [hK, show (t + k - t).toNat = k by omega,
    Nat.shiftLeft_eq, hShift, Nat.mul_div_cancel_left _ hB,
    Nat.mul_mod_right, hJ]
  rfl

/- A quotient that fits is exact. -/
theorem div_exact
    (hValue : a.value = q.value * b.value) :
    div Format.binary64
        (.finite .positive a.significand a.exponent hA)
        (.finite .positive b.significand b.exponent hB) =
      .finite .positive q.significand q.exponent
        hFits.pos := by
  obtain ⟨j, hCore⟩ := divCore_exact hA hB hFits hValue
  simp only [div, hCore]
  exact round_exact hFits
    (Nat.mul_pos hFits.pos (by positivity))
    (Magnitude.value_shift _ _ _) (by dsimp only; omega)
    .positive

end Binary64

end OcScript
