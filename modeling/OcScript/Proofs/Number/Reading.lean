import OcScript.Proofs.Number.Rounding
import Mathlib.Tactic.FieldSimp

/-
  This file proves that a decimal which is exactly a
  floating-point number is read as that number.

  Reading has two ways.  Few digits and a small exponent are
  put together by one product or quotient of numbers that
  are exact themselves; everything else is rounded once from
  whole numbers.  On both ways a result that fits is exact,
  and no way leads to a minus or to NaN.

  Key definitions include:
    * `OcScript.Decimal.value`
    * `OcScript.Binary64.Leads`
    * `OcScript.Binary64.powerOfTen`

  Key theorems include:
    * `OcScript.Binary64.leads_toFloat`
    * `OcScript.Binary64.leads_powerOfTen`
    * `OcScript.Binary64.ofScientific_exact`
    * `OcScript.Decimal.toFloat_eq_ofParts`
    * `OcScript.Decimal.unsigned_toFloat`
-/

------------------------------------------------------------
-- Whole Numbers and Powers of Ten
------------------------------------------------------------

namespace OcScript

namespace Binary64

open Float.Model (Format UnpackedFloat totalExponent)
open Float.Model.UnpackedFloat

/-
  The number is `v`, with a plus and all 53 bits of the
  significand.
-/
def Leads
    (x : Float)
    (v : ℚ) : Prop :=
  ∃ (m : Magnitude) (hPos : 0 < m.significand),
    parts x =
      .finite .positive m.significand m.exponent hPos ∧
    2 ^ 52 ≤ m.significand ∧
    m.value = v

/- A whole number below `2 ^ 53` is converted exactly. -/
theorem leads_toFloat
    {n : Nat}
    (hPos : 0 < n)
    (hLt : n < 2 ^ 53) :
    Leads n.toUInt64.toFloat n := by
  have hLog : n.log2 < 53 := (Nat.log2_lt hPos.ne').mpr hLt
  obtain ⟨k, hK⟩ : ∃ k, n.log2 + k = 52 :=
    ⟨52 - n.log2, by omega⟩
  have hWord : n.toUInt64.toNat = n :=
    Nat.mod_eq_of_lt (by omega)
  have hLead : 2 ^ 52 ≤ n * 2 ^ k := by
    rw [← hK, Nat.pow_add]
    exact Nat.mul_le_mul_right _
      (Nat.log2_self_le hPos.ne')
  have hLess : n * 2 ^ k < 2 ^ 53 := by
    rw [show 53 = n.log2 + 1 + k by omega, Nat.pow_add]
    exact Nat.mul_lt_mul_of_pos_right Nat.lt_log2_self
      (by positivity)
  have hFits : Magnitude.Fits ⟨n * 2 ^ k, 0 - k⟩ :=
    ⟨by dsimp only; omega, hLess, by dsimp only; omega,
      by dsimp only; omega, Or.inr hLead⟩
  have hTarget :
      (0 - Format.binary64.targetExponent
        (totalExponent n 0)).toNat = k := by
    rw [targetExponent_eq, totalExponent]
    omega
  have hCompare : compare (n : Int) 0 = .gt := by
    rw [Int.compare_eq_gt]
    omega
  have hRound :
      ofNat Format.binary64 n =
        .finite .positive (n * 2 ^ k) (0 - k)
          hFits.pos := by
    simp only [ofNat, ofInt, UnpackedFloat.normalize,
      hCompare, UnpackedFloat.round, decreaseExponent,
      Int.toNat_natCast, hTarget, Nat.shiftLeft_eq]
    exact round_exact hFits hFits.pos rfl le_rfl .positive
  refine ⟨_, hFits.pos, ?_, hLead, ?_⟩
  · change parts (ofParts
      (ofNat Format.binary64 n.toUInt64.toNat)) = _
    rw [hWord, hRound, parts_ofParts _ hFits]
  · rw [Magnitude.value_shift]
    simp [Magnitude.value]

/- The powers of ten that reading has at hand. -/
def powerOfTen
    (e : Nat)
    (hLe : e ≤ 22) :
    Float :=
  have hBound :
      e < Float.exactlyRepresentablePowersOfTen.size :=
    Nat.lt_succ_of_le hLe
  Float.exactlyRepresentablePowersOfTen[e]

/- Check that parts with all leading bits make up `n`. -/
def partsMake
    (n : Nat) :
    UnpackedFloat → Bool
| .finite .positive M E _ =>
    2 ^ 52 ≤ M ∧ M * 2 ^ E.toNat = n * 2 ^ (-E).toNat
| _ => false

theorem leads_of_partsMake
    {x : Float}
    {n : Nat}
    (hMake : partsMake n (parts x)) :
    Leads x n := by
  generalize hParts : parts x = u at hMake
  match u with
  | .finite .positive M E hPos =>
      simp only [partsMake, decide_eq_true_eq] at hMake
      obtain ⟨hLead, hValue⟩ := hMake
      refine ⟨⟨M, E⟩, hPos, hParts, hLead, ?_⟩
      have hCast :
          (M : ℚ) * 2 ^ E.toNat = n * 2 ^ (-E).toNat := by
        exact_mod_cast hValue
      have hExp :
          (2 : ℚ) ^ E = 2 ^ E.toNat / 2 ^ (-E).toNat := by
        rw [← zpow_natCast, ← zpow_natCast,
          ← zpow_sub₀ two_ne_zero]
        congr 1
        omega
      rw [Magnitude.value, hExp, mul_div_assoc', hCast]
      field_simp

/- Every entry of the table is the power it stands for. -/
theorem partsMake_powerOfTen :
    ∀ e : Fin 23,
      partsMake (10 ^ e.val)
        (parts (powerOfTen e (by omega))) := by
  decide +kernel

theorem leads_powerOfTen
    {e : Nat}
    (hLe : e ≤ 22) :
    Leads (powerOfTen e hLe) (10 ^ e) := by
  have hLeads := leads_of_partsMake
    (partsMake_powerOfTen ⟨e, by omega⟩)
  exact_mod_cast hLeads

section Combine

variable {x y : Float}
variable {v w : ℚ}
variable {q : Magnitude}
variable (hFits : q.Fits)
variable (hX : Leads x v)
variable (hY : Leads y w)
include hX hY

theorem mul_eq_ofParts
    (hValue : v * w = q.value) :
    x * y =
      ofParts (.finite .positive q.significand q.exponent
        hFits.pos) := by
  obtain ⟨a, hA, hPartsX, hLeadX, rfl⟩ := hX
  obtain ⟨b, hB, hPartsY, hLeadY, rfl⟩ := hY
  have hLead : 2 ^ 52 ≤ a.significand * b.significand :=
    hLeadX.trans (Nat.le_mul_of_pos_right _ hB)
  change ofParts
    (mul Format.binary64 (parts x) (parts y)) = _
  rw [hPartsX, hPartsY, mul_exact hA hB hFits hLead hValue]

theorem div_eq_ofParts
    (hValue : v = q.value * w) :
    x / y =
      ofParts (.finite .positive q.significand q.exponent
        hFits.pos) := by
  obtain ⟨a, hA, hPartsX, -, rfl⟩ := hX
  obtain ⟨b, hB, hPartsY, -, rfl⟩ := hY
  change ofParts
    (div Format.binary64 (parts x) (parts y)) = _
  rw [hPartsX, hPartsY, div_exact hA hB hFits hValue]

end Combine

end Binary64

end OcScript

------------------------------------------------------------
-- Rounding Once
------------------------------------------------------------

namespace OcScript

namespace Magnitude

namespace Fits

variable {q : Magnitude}
variable (hFits : q.Fits)
include hFits

theorem value_lt :
    q.value < (2 : ℚ) ^ (1024 : Int) := by
  have hTop := hFits.top_le
  have hHigh := hFits.high
  calc
    q.value < (2 : ℚ) ^ q.top := q.value_lt_two_zpow_top
    _ ≤ 2 ^ (1024 : Int) :=
      zpow_le_zpow_right₀ one_le_two (by omega)

theorem le_value :
    (2 : ℚ) ^ (-1074 : Int) ≤ q.value := by
  have hOne : (1 : ℚ) ≤ q.significand := by
    exact_mod_cast hFits.pos
  calc
    (2 : ℚ) ^ (-1074 : Int) ≤ 2 ^ q.exponent :=
      zpow_le_zpow_right₀ one_le_two hFits.low
    _ ≤ q.value :=
      le_mul_of_one_le_left (by positivity) hOne

end Fits

end Magnitude

namespace Binary64

open Float.Model (Format UnpackedFloat)
open Float.Model.UnpackedFloat

variable {n : Nat}
variable {e : Int}

theorem ten_zpow
    (e : Int) :
    (10 : ℚ) ^ e = 2 ^ e * 5 ^ e := by
  rw [← mul_zpow]
  norm_num

/- Below the first infinite power of two. -/
theorem exponent_lt_of_lt
    (hPos : 0 < n)
    (hLt : (n : ℚ) * 10 ^ e < 2 ^ (1024 : Int)) :
    e < 1024 := by
  by_contra hLe
  refine absurd hLt (not_lt.mpr ?_)
  have hOne : (1 : ℚ) ≤ n := by exact_mod_cast hPos
  have hFive : (1 : ℚ) ≤ 5 ^ e :=
    one_le_zpow₀ (by norm_num) (by omega)
  calc
    (2 : ℚ) ^ (1024 : Int) ≤ 2 ^ e :=
      zpow_le_zpow_right₀ one_le_two (by omega)
    _ ≤ 2 ^ e * 5 ^ e :=
      le_mul_of_one_le_right (by positivity) hFive
    _ = 10 ^ e := (ten_zpow e).symm
    _ ≤ n * 10 ^ e :=
      le_mul_of_one_le_left (by positivity) hOne

/- Not below the least magnitude. -/
theorem le_exponent_of_le
    (hLe : 2 ^ (-1074 : Int) ≤ (n : ℚ) * 10 ^ e) :
    -1075 - (n.log2 : Int) ≤ e := by
  by_contra hLt
  refine absurd hLe (not_le.mpr ?_)
  have hLog : (n : ℚ) < 2 ^ (n.log2 + 1) := by
    exact_mod_cast Nat.lt_log2_self
  have hFive : (5 : ℚ) ^ e ≤ 1 :=
    zpow_le_one_of_nonpos₀ (by norm_num) (by omega)
  calc
    (n : ℚ) * 10 ^ e < 2 ^ (n.log2 + 1) * 10 ^ e :=
      mul_lt_mul_of_pos_right hLog (by positivity)
    _ = 2 ^ (n.log2 + 1) * 2 ^ e * 5 ^ e := by
      rw [ten_zpow, mul_assoc]
    _ ≤ 2 ^ (n.log2 + 1) * 2 ^ e :=
      mul_le_of_le_one_right (by positivity) hFive
    _ = 2 ^ ((n.log2 : Int) + 1 + e) := by
      rw [zpow_add₀ two_ne_zero]
      norm_cast
    _ ≤ 2 ^ (-1074 : Int) :=
      zpow_le_zpow_right₀ one_le_two (by omega)

/-
  The guards against huge powers of ten turn away nothing
  that fits.
-/
theorem ofScientific_exact
    {q : Magnitude}
    (hFits : q.Fits)
    (hPos : 0 < n)
    (hValue : (n : ℚ) * 10 ^ e = q.value) :
    ofScientific Format.binary64 n e =
      .finite .positive q.significand q.exponent
        hFits.pos := by
  have hUp : ¬ e > 2 ^ Format.binary64.exponentBits := by
    have hLt := exponent_lt_of_lt hPos
      (hValue ▸ hFits.value_lt)
    change ¬ e > 2 ^ 11
    omega
  have hDown :
      ¬ e < -((2 ^ Format.binary64.exponentBits : Int) +
        n.log2) := by
    have hLe := le_exponent_of_le
      (hValue ▸ hFits.le_value)
    change ¬ e < - (2 ^ 11 + _)
    omega
  simp only [ofScientific, dif_neg hPos.ne', if_neg hUp,
    if_neg hDown]
  split
  case isTrue hExp =>
    refine mul_exact
      (a := ⟨n <<< Format.binary64.mantissaBits,
        -Format.binary64.mantissaBits⟩)
      (b := ⟨10 ^ e.toNat, 0⟩) _ _ hFits ?_ ?_
    · have hOne : 1 ≤ n * 10 ^ e.toNat :=
        Nat.mul_pos hPos (by positivity)
      change 2 ^ 52 ≤ (n <<< 53) * 10 ^ e.toNat
      rw [Nat.shiftLeft_eq]
      calc
        2 ^ 52 ≤ 1 * 2 ^ 53 := by omega
        _ ≤ n * 10 ^ e.toNat * 2 ^ 53 :=
          Nat.mul_le_mul_right _ hOne
        _ = n * 2 ^ 53 * 10 ^ e.toNat := by ring
    · have hShift := Magnitude.value_shift n
        Format.binary64.mantissaBits 0
      rw [zero_sub] at hShift
      rw [← hValue, Nat.shiftLeft_eq, hShift]
      simp only [Magnitude.value]
      push_cast
      rw [← zpow_natCast, Int.toNat_of_nonneg hExp]
      simp
  case isFalse hExp =>
    refine div_exact (a := ⟨n, 0⟩)
      (b := ⟨10 ^ (-e).toNat, 0⟩) _ _ hFits ?_
    rw [← hValue]
    simp only [Magnitude.value]
    push_cast
    rw [← zpow_natCast, Int.toNat_of_nonneg (by omega),
      mul_one, mul_one, mul_assoc,
      ← zpow_add₀ (by norm_num)]
    simp

end Binary64

end OcScript

------------------------------------------------------------
-- Reading Decimals
------------------------------------------------------------

namespace OcScript

namespace Decimal

open Float.Model (Format UnpackedFloat)
open Float.Model.UnpackedFloat
open Binary64

/- The exact number that a decimal denotes. -/
def value
    (d : Decimal) :
    ℚ :=
  d.digits * 10 ^ d.exponent

variable {d : Decimal}

/- Few digits and a small exponent take the short way. -/
theorem toFloat_short
    (hFew : d.digits < 2 ^ 53)
    (hSmall : d.exponent.natAbs ≤ 22) :
    d.toFloat =
      if d.exponent < 0 then
        d.digits.toUInt64.toFloat /
          powerOfTen d.exponent.natAbs hSmall
      else
        d.digits.toUInt64.toFloat *
          powerOfTen d.exponent.natAbs hSmall := by
  rw [toFloat, Float.ofScientific, dif_pos ⟨hFew, hSmall⟩]
  simp only [decide_eq_true_eq]
  rfl

/- All others take the long way. -/
theorem toFloat_long
    (hLong :
      ¬ (d.digits < 2 ^ 53 ∧ d.exponent.natAbs ≤ 22)) :
    d.toFloat =
      ofParts (ofScientific Format.binary64
        d.digits d.exponent) := by
  have hExp :
      (if decide (d.exponent < 0) then
        Int.negOfNat d.exponent.natAbs
      else
        Int.ofNat d.exponent.natAbs) = d.exponent := by
    simp only [Int.negOfNat_eq, Int.ofNat_eq_natCast,
      decide_eq_true_eq]
    split <;> omega
  rw [toFloat, Float.ofScientific, dif_neg hLong]
  simp only [hExp]
  rfl

theorem digits_pos
    (hValue : 0 < d.value) :
    0 < d.digits := by
  rw [Nat.pos_iff_ne_zero]
  intro hZero
  rw [value, hZero] at hValue
  simp at hValue

/-
  A decimal with the value of a fitting magnitude is read as
  that magnitude.
-/
theorem toFloat_eq_ofParts
    {q : Magnitude}
    (hFits : q.Fits)
    (hValue : d.value = q.value) :
    d.toFloat =
      ofParts (.finite .positive q.significand q.exponent
        hFits.pos) := by
  have hPos : 0 < d.digits :=
    digits_pos (hValue ▸ Magnitude.value_pos hFits.pos)
  by_cases hShort :
      d.digits < 2 ^ 53 ∧ d.exponent.natAbs ≤ 22
  · obtain ⟨hFew, hSmall⟩ := hShort
    have hDigits := leads_toFloat hPos hFew
    have hPower := leads_powerOfTen hSmall
    rw [toFloat_short hFew hSmall]
    split
    case isTrue hNeg =>
      refine div_eq_ofParts hFits hDigits hPower ?_
      rw [← hValue, value, ← zpow_natCast, mul_assoc,
        ← zpow_add₀ (by norm_num),
        show d.exponent + d.exponent.natAbs = 0 by omega]
      simp
    case isFalse hNeg =>
      refine mul_eq_ofParts hFits hDigits hPower ?_
      rw [← hValue, value, ← zpow_natCast,
        show (d.exponent.natAbs : Int) = d.exponent by
          omega]
  · rw [toFloat_long hShort,
      ofScientific_exact hFits hPos hValue]

end Decimal

end OcScript

------------------------------------------------------------
-- Numbers Read Have No Minus
------------------------------------------------------------

namespace OcScript

namespace Binary64

open Float.Model (Format UnpackedFloat)
open Float.Model.UnpackedFloat

theorem unsigned_round
    (M : Nat)
    (E : Int)
    (accuracy : Accuracy) :
    Unsigned (roundWithAccuracy Format.binary64 .positive
      M E accuracy) := by
  simp only [roundWithAccuracy]
  split <;> rfl

variable {u : UnpackedFloat}
variable {M : Nat}
variable {E : Int}
variable (hPos : 0 < M)

/- A finite number without a minus. -/
def UnsignedFinite (u : UnpackedFloat) : Prop :=
  Unsigned u ∧ u.isFinite

theorem unsigned_mul
    (hU : UnsignedFinite u) :
    Unsigned (mul Format.binary64 u
      (.finite .positive M E hPos)) := by
  obtain ⟨hUnsigned, hFinite⟩ := hU
  cases u with
  | notANumber => exact hUnsigned.elim
  | infinity s => cases hFinite
  | zero s =>
      obtain rfl : s = .positive := hUnsigned
      rfl
  | finite s N F hN =>
      obtain rfl : s = .positive := hUnsigned
      exact unsigned_round _ _ _

theorem unsigned_div
    (hU : UnsignedFinite u) :
    Unsigned (div Format.binary64 u
      (.finite .positive M E hPos)) := by
  obtain ⟨hUnsigned, hFinite⟩ := hU
  cases u with
  | notANumber => exact hUnsigned.elim
  | infinity s => cases hFinite
  | zero s =>
      obtain rfl : s = .positive := hUnsigned
      rfl
  | finite s N F hN =>
      obtain rfl : s = .positive := hUnsigned
      exact unsigned_round _ _ _

theorem unsigned_ofScientific
    (n : Nat)
    (e : Int) :
    Unsigned (ofScientific Format.binary64 n e) := by
  simp only [ofScientific]
  split
  · rfl
  · split
    · rfl
    · split
      · rfl
      · split
        · exact unsigned_mul _ ⟨rfl, rfl⟩
        · exact unsigned_div _ ⟨rfl, rfl⟩

theorem unsignedFinite_toFloat
    {n : Nat}
    (hLt : n < 2 ^ 53) :
    UnsignedFinite (parts n.toUInt64.toFloat) := by
  rcases Nat.eq_zero_or_pos n with rfl | hPos
  · exact ⟨rfl, rfl⟩
  · obtain ⟨m, hM, hParts, -⟩ := leads_toFloat hPos hLt
    rw [hParts]
    exact ⟨rfl, rfl⟩

end Binary64

namespace Decimal

open Binary64

/- No decimal is read as NaN or with a minus. -/
theorem unsigned_toFloat
    (d : Decimal) :
    Unsigned (parts d.toFloat) := by
  by_cases hShort :
      d.digits < 2 ^ 53 ∧ d.exponent.natAbs ≤ 22
  · obtain ⟨hFew, hSmall⟩ := hShort
    obtain ⟨m, hM, hParts, -⟩ := leads_powerOfTen hSmall
    have hDigits := unsignedFinite_toFloat hFew
    rw [toFloat_short hFew hSmall]
    split
    · apply unsigned_parts_ofParts
      change Unsigned (Float.Model.UnpackedFloat.div _ _
        (parts (powerOfTen d.exponent.natAbs hSmall)))
      rw [hParts]
      exact unsigned_div hM hDigits
    · apply unsigned_parts_ofParts
      change Unsigned (Float.Model.UnpackedFloat.mul _ _
        (parts (powerOfTen d.exponent.natAbs hSmall)))
      rw [hParts]
      exact unsigned_mul hM hDigits
  · rw [toFloat_long hShort]
    exact unsigned_parts_ofParts
      (unsigned_ofScientific d.digits d.exponent)

end Decimal

end OcScript
