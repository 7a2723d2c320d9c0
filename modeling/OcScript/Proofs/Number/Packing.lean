import Mathlib
import OcScript.Decimal

/-
  This file takes floating-point numbers apart into sign,
  significand and exponent, and puts them together again.

  The three fields of the bits and the three parts of the
  number determine each other.  A finite number has one form
  only: either its significand has all 53 bits, or its
  exponent is the least one there is.  The exact magnitude
  of a number is read off the same fields.

  Key definitions include:
    * `OcScript.Magnitude.Fits`
    * `OcScript.Binary64.parts`
    * `OcScript.Binary64.ofParts`
    * `OcScript.Binary64.Unsigned`

  Key theorems include:
    * `OcScript.Binary64.ofParts_parts`
    * `OcScript.Binary64.parts_ofParts`
    * `OcScript.Binary64.fits_of_parts`
    * `OcScript.Binary64.magnitude_of_parts`
    * `OcScript.Binary64.unsigned_parts_ofParts`
-/

------------------------------------------------------------
-- The Three Fields
------------------------------------------------------------

namespace OcScript

namespace Binary64

open Float.Model (Format UnpackedFloat)
open Float.Model.UnpackedFloat

section Fields

variable (s : Sign)

/- Sixty-four bits are nothing but their three fields. -/
theorem exists_packComponents
    (b : BitVec Format.binary64.numBits) :
    ∃ (s : Sign) (e : BitVec 11) (m : BitVec 52),
      b = packComponents Format.binary64 s e m :=
  ⟨_, _, _,
    (packComponents_unpackSign_unpackExponent_unpackMantissa
      b).symm⟩

/- The leading bit that the field leaves out. -/
theorem toNat_leading_append
    (m : BitVec 52) :
    (1#1 ++ m).toNat = 2 ^ 52 + m.toNat := by
  rw [BitVec.toNat_append,
    ← Nat.shiftLeft_add_eq_or_of_lt m.isLt]
  simp [Nat.shiftLeft_eq]

/- The bits, read as one number. -/
theorem toNat_packComponents
    (e : BitVec 11)
    (m : BitVec 52) :
    (packComponents Format.binary64 s e m).toNat =
      (s.toBitVec.toNat * 2 ^ 11 + e.toNat) * 2 ^ 52 +
        m.toNat := by
  unfold packComponents
  rw [BitVec.toNat_append,
    ← Nat.shiftLeft_add_eq_or_of_lt m.isLt,
    BitVec.toNat_append,
    ← Nat.shiftLeft_add_eq_or_of_lt e.isLt,
    Nat.shiftLeft_eq, Nat.shiftLeft_eq]

theorem toNat_lt_of_ne_ones
    {e : BitVec 11}
    (hOnes : e ≠ -1#11) :
    e.toNat < 2047 := by
  have hNe : e.toNat ≠ 2047 := fun hEq =>
    hOnes (BitVec.eq_of_toNat_eq (by simpa using hEq))
  omega

theorem toNat_pos_of_ne_zero
    {n : Nat}
    {b : BitVec n}
    (hZero : b ≠ 0#n) :
    0 < b.toNat := by
  simpa [BitVec.toNat_pos, BitVec.pos_iff_ne_zero]

end Fields

end Binary64

end OcScript

------------------------------------------------------------
-- Fields and Parts
------------------------------------------------------------

namespace OcScript

namespace Binary64

open Float.Model (Format UnpackedFloat)
open Float.Model.UnpackedFloat

section Special

variable (s : Sign)

/- An exponent of ones marks what is not finite. -/
theorem unpack_ones
    (m : BitVec 52) :
    unpack Format.binary64
        (packComponents Format.binary64 s (-1#11) m) =
      if m = 0#52 then .infinity s else .notANumber := by
  simp only [unpack, unpackExponent_packComponents,
    unpackMantissa_packComponents,
    unpackSign_packComponents, Sign.ofBitVec_toBitVec]
  rw [if_pos trivial]

/- A number with a leading bit. -/
theorem unpack_normal
    {e : BitVec 11}
    (m : BitVec 52)
    (hOnes : e ≠ -1#11)
    (hZero : e ≠ 0#11) :
    unpack Format.binary64
        (packComponents Format.binary64 s e m) =
      .finite s (2 ^ 52 + m.toNat) ((e.toNat : Int) - 1075)
        (by omega) := by
  simp only [unpack, unpackExponent_packComponents,
    unpackMantissa_packComponents,
    unpackSign_packComponents, Sign.ofBitVec_toBitVec]
  rw [if_neg hOnes, if_neg hZero]
  simp only [toNat_leading_append]
  rfl

/- A number without a leading bit. -/
theorem unpack_subnormal
    {m : BitVec 52}
    (hZero : m ≠ 0#52) :
    unpack Format.binary64
        (packComponents Format.binary64 s 0#11 m) =
      .finite s m.toNat (-1074)
        (toNat_pos_of_ne_zero hZero) := by
  simp only [unpack, unpackExponent_packComponents,
    unpackMantissa_packComponents,
    unpackSign_packComponents, Sign.ofBitVec_toBitVec]
  rw [if_neg (by decide), if_pos trivial, dif_neg hZero]
  rfl

end Special

section Pack

variable (s : Sign)
variable {M : Nat}
variable {E : Int}
variable (hPos : 0 < M)

theorem pack_normal
    (hLow : 2 ^ 52 ≤ M)
    (hHigh : M < 2 ^ 53)
    (hMin : -1074 ≤ E)
    (hMax : E ≤ 971) :
    pack Format.binary64 (.finite s M E hPos) =
      packComponents Format.binary64 s
        (BitVec.ofNat 11 (E + 1075).toNat)
        (BitVec.ofNat 52 M) := by
  have hLog : M.log2 = 52 :=
    (Nat.log2_eq_iff (by omega)).mpr ⟨hLow, hHigh⟩
  have hField :
      E + Format.binary64.exponentBias +
          Format.binary64.mantissaBitsWithoutImplicit =
        E + 1075 := by
    change E + 1023 + 52 = _
    omega
  simp only [pack, hLog, hField]
  rw [if_neg (by change ¬ 2048 ≤ _; omega),
    if_pos (by decide)]

theorem pack_subnormal
    (hHigh : M < 2 ^ 52) :
    pack Format.binary64 (.finite s M (-1074) hPos) =
      packComponents Format.binary64 s 0#11
        (BitVec.ofNat 52 M) := by
  have hLog : M.log2 < 52 :=
    (Nat.log2_lt (by omega)).mpr hHigh
  simp only [pack]
  rw [if_neg (by decide),
    if_neg (by change ¬ _ = 53; omega)]

end Pack

end Binary64

end OcScript

------------------------------------------------------------
-- Magnitudes That Fit
------------------------------------------------------------

namespace OcScript

/-
  The magnitudes of the finite numbers other than zero, each
  in its one form.
-/
structure Magnitude.Fits
    (m : Magnitude) : Prop where
  pos : 0 < m.significand
  lt : m.significand < 2 ^ 53
  low : -1074 ≤ m.exponent
  high : m.exponent ≤ 971
  tight : m.exponent = -1074 ∨ 2 ^ 52 ≤ m.significand

namespace Binary64

open Float.Model (Format UnpackedFloat)
open Float.Model.UnpackedFloat

/- Putting a fitting magnitude together loses nothing. -/
theorem unpack_pack
    (s : Sign)
    {M : Nat}
    {E : Int}
    {hPos : 0 < M}
    (hFits : Magnitude.Fits ⟨M, E⟩) :
    unpack Format.binary64
        (pack Format.binary64 (.finite s M E hPos)) =
      .finite s M E hPos := by
  obtain ⟨-, hLt, hLow, hHigh, hTight⟩ := hFits
  dsimp only at *
  by_cases hNormal : 2 ^ 52 ≤ M
  · have hField :
        (BitVec.ofNat 11 (E + 1075).toNat).toNat =
          (E + 1075).toNat := by
      rw [BitVec.toNat_ofNat]
      omega
    rw [pack_normal s hPos hNormal hLt hLow hHigh,
      unpack_normal]
    · congr 1
      · rw [BitVec.toNat_ofNat]
        omega
      · omega
    · intro hOnes
      rw [hOnes] at hField
      change 2047 = _ at hField
      omega
    · intro hZero
      rw [hZero] at hField
      change 0 = _ at hField
      omega
  · obtain rfl := hTight.resolve_right hNormal
    have hField : (BitVec.ofNat 52 M).toNat = M := by
      rw [BitVec.toNat_ofNat]
      omega
    rw [pack_subnormal s hPos (by omega), unpack_subnormal]
    · simp only [hField]
    · intro hZero
      rw [hZero] at hField
      change 0 = _ at hField
      omega

end Binary64

end OcScript

------------------------------------------------------------
-- Numbers by Their Parts
------------------------------------------------------------

namespace OcScript

namespace Binary64

open Float.Model (Format UnpackedFloat)
open Float.Model.UnpackedFloat

/- The parts of a number. -/
def parts
    (x : Float) :
    UnpackedFloat :=
  x.toModel.unpack

/- The number with the given parts. -/
def ofParts
    (u : UnpackedFloat) :
    Float :=
  .ofModel (.pack u)

/- A number comes back from its parts. -/
theorem ofParts_parts
    (x : Float) :
    ofParts (parts x) = x :=
  Float.ofBits_toBits x

theorem parts_injective
    {x y : Float}
    (hParts : parts x = parts y) :
    x = y := by
  rw [← ofParts_parts x, hParts, ofParts_parts]

theorem parts_ofParts
    (s : Sign)
    {M : Nat}
    {E : Int}
    {hPos : 0 < M}
    (hFits : Magnitude.Fits ⟨M, E⟩) :
    parts (ofParts (.finite s M E hPos)) =
      .finite s M E hPos :=
  unpack_pack s hFits

section Finite

variable {x : Float}
variable {s : Sign}
variable {M : Nat}
variable {E : Int}
variable {hPos : 0 < M}
variable (hParts : parts x = .finite s M E hPos)
include hParts

/-
  The fields of a finite number other than zero: with a
  leading bit, or without.
-/
theorem fields_of_parts :
    ∃ (e : BitVec 11) (m : BitVec 52),
      x.toBits.toBitVec =
        packComponents Format.binary64 s e m ∧
      e.toNat < 2047 ∧
      ((0 < e.toNat ∧ M = 2 ^ 52 + m.toNat ∧
          E = (e.toNat : Int) - 1075) ∨
        (e.toNat = 0 ∧ M = m.toNat ∧ E = -1074)) := by
  obtain ⟨t, e, m, hBits⟩ :=
    exists_packComponents x.toBits.toBitVec
  change unpack Format.binary64 x.toBits.toBitVec = _
    at hParts
  rw [hBits] at hParts ⊢
  by_cases hOnes : e = -1#11
  · rw [hOnes, unpack_ones] at hParts
    split at hParts <;> cases hParts
  · have hMax := toNat_lt_of_ne_ones hOnes
    by_cases hZero : e = 0#11
    · subst hZero
      by_cases hNone : m = 0#52
      · subst hNone
        cases t <;> cases hParts
      · rw [unpack_subnormal t hNone] at hParts
        cases hParts
        exact ⟨_, _, rfl, hMax, Or.inr ⟨rfl, rfl, rfl⟩⟩
    · rw [unpack_normal t m hOnes hZero] at hParts
      cases hParts
      exact ⟨_, _, rfl, hMax,
        Or.inl ⟨toNat_pos_of_ne_zero hZero, rfl, rfl⟩⟩

theorem fits_of_parts :
    Magnitude.Fits ⟨M, E⟩ := by
  obtain ⟨e, m, -, hMax, hForm⟩ := fields_of_parts hParts
  have hField : m.toNat < 2 ^ 52 := m.isLt
  constructor <;> dsimp only <;> omega

/- The magnitude of a number is made of the same parts. -/
theorem magnitude_of_parts :
    Magnitude.ofFloat x = ⟨M, E⟩ := by
  obtain ⟨e, m, hBits, hMax, hForm⟩ :=
    fields_of_parts hParts
  have hField : m.toNat < 2 ^ 52 := m.isLt
  have hNat : x.toBits.toNat =
      (s.toBitVec.toNat * 2 ^ 11 + e.toNat) * 2 ^ 52 +
        m.toNat := by
    rw [← toNat_packComponents, ← hBits]
    rfl
  have hFraction :
      x.toBits.toNat % Nat.pow 2 63 % Nat.pow 2 52 =
        m.toNat := by
    change _ % 2 ^ 63 % 2 ^ 52 = _
    omega
  have hScale :
      x.toBits.toNat % Nat.pow 2 63 / Nat.pow 2 52 =
        e.toNat := by
    change _ % 2 ^ 63 / 2 ^ 52 = _
    omega
  simp only [Magnitude.ofFloat, hFraction, hScale]
  rcases hForm with ⟨hLead, rfl, rfl⟩ | ⟨hNone, rfl, rfl⟩
  · obtain ⟨scale, hSucc⟩ : ∃ scale, e.toNat = scale + 1 :=
      ⟨e.toNat - 1, by omega⟩
    rw [hSucc]
    simp only [Nat.pow_eq, Magnitude.mk.injEq, true_and]
    omega
  · rw [hNone]

end Finite

end Binary64

end OcScript

------------------------------------------------------------
-- Numbers Without a Minus
------------------------------------------------------------

namespace OcScript

namespace Binary64

open Float.Model (Format UnpackedFloat)
open Float.Model.UnpackedFloat

/- A number, possibly infinite, with a plus for its sign. -/
def Unsigned : UnpackedFloat → Prop
| .notANumber => False
| .infinity s => s = .positive
| .zero s => s = .positive
| .finite s _ _ _ => s = .positive

theorem unsigned_unpack
    {e : BitVec 11}
    {m : BitVec 52}
    (hOnes : e = -1#11 → m = 0#52) :
    Unsigned (unpack Format.binary64
      (packComponents Format.binary64 .positive e m)) := by
  by_cases hAll : e = -1#11
  · rw [hAll, unpack_ones, if_pos (hOnes hAll)]
    rfl
  · by_cases hZero : e = 0#11
    · subst hZero
      by_cases hNone : m = 0#52
      · subst hNone
        rfl
      · rw [unpack_subnormal _ hNone]
        rfl
    · rw [unpack_normal _ m hAll hZero]
      rfl

/- Putting a number together never costs it its plus. -/
theorem unsigned_parts_ofParts
    {u : UnpackedFloat}
    (hUnsigned : Unsigned u) :
    Unsigned (parts (ofParts u)) := by
  change Unsigned (unpack Format.binary64
    (pack Format.binary64 u))
  cases u with
  | notANumber => exact hUnsigned.elim
  | infinity s =>
      obtain rfl : s = .positive := hUnsigned
      exact unsigned_unpack fun _ => rfl
  | zero s =>
      obtain rfl : s = .positive := hUnsigned
      exact unsigned_unpack fun _ => rfl
  | finite s M E hPos =>
      obtain rfl : s = .positive := hUnsigned
      simp only [pack]
      split
      · exact unsigned_unpack fun _ => rfl
      · split
        · apply unsigned_unpack
          intro hOnes
          have hField := congrArg BitVec.toNat hOnes
          rw [BitVec.toNat_ofNat] at hField
          change _ = 2047 at hField
          omega
        · exact unsigned_unpack fun hOnes =>
            absurd hOnes (by decide)

end Binary64

end OcScript
