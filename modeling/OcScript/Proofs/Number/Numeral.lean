import OcScript.Proofs.Number.Reading
import OcScript.Proofs.Scan.MaximalMunch

/-
  This file proves that the text of a decimal denotes that
  decimal.

  A text of digits, with a point among them or without one,
  denotes a decimal, and such a text is a number to the
  scanner.  Writing a decimal fills the places up to the
  point with zeros, which does not change its value.

  Key definitions include:
    * `OcScript.Decimal.Denotes`

  Key theorems include:
    * `OcScript.Decimal.ofText_of_denotes`
    * `OcScript.Decimal.lexeme_of_denotes`
    * `OcScript.Decimal.exists_denotes_toText`
-/

------------------------------------------------------------
-- Texts That Denote Decimals
------------------------------------------------------------

namespace OcScript

namespace Decimal

/- A text with at least one character, all of them digits. -/
structure Digits
    (text : List Char) : Prop where
  ne_nil : text ≠ []
  isDigit : ∀ c ∈ text, c.isDigit

/-
  Digits denote a whole number.  A point moves the digits
  after it behind the units.
-/
inductive Denotes : List Char → Decimal → Prop where
| whole
    {whole : List Char}
    (hWhole : Digits whole) :
    Denotes whole ⟨Nat.ofDigitChars 10 whole 0, 0⟩
| fraction
    {whole fraction : List Char}
    (hWhole : Digits whole)
    (hFraction : Digits fraction) :
    Denotes (whole ++ '.' :: fraction)
      ⟨Nat.ofDigitChars 10 (whole ++ fraction) 0,
        -(fraction.length : Int)⟩

theorem Digits.exists_cons
    {text : List Char}
    (hDigits : Digits text) :
    ∃ c rest,
      text = c :: rest ∧
      Lexeme.IsDigit c ∧
      ∀ d ∈ rest, Lexeme.IsDigit d := by
  obtain ⟨hNe, hAll⟩ := hDigits
  cases text with
  | nil => exact absurd rfl hNe
  | cons c rest =>
      rw [List.forall_mem_cons] at hAll
      exact ⟨c, rest, rfl, (Lexeme.isDigit_iff c).mp hAll.1,
        fun d hMem =>
          (Lexeme.isDigit_iff d).mp (hAll.2 d hMem)⟩

variable {text : List Char}
variable {d : Decimal}

/- Reading a text finds the decimal it denotes. -/
theorem ofText_of_denotes
    (hDenotes : Denotes text d) :
    ofText text = d := by
  cases hDenotes with
  | whole hWhole =>
      rw [ofText, List.takeWhile_eq_self_iff.mpr
          hWhole.isDigit,
        List.dropWhile_eq_nil_iff.mpr hWhole.isDigit]
      simp
  | fraction hWhole hFraction =>
      rw [ofText,
        List.takeWhile_append_of_pos hWhole.isDigit,
        List.dropWhile_append_of_pos hWhole.isDigit,
        List.takeWhile_cons_of_neg (by decide),
        List.dropWhile_cons_of_neg (by decide)]
      simp

/- Such a text starts with a digit. -/
theorem isDigit_head_of_denotes
    (hDenotes : Denotes text d) :
    ∃ c, text.head? = some c ∧ Lexeme.IsDigit c := by
  cases hDenotes with
  | whole hWhole =>
      obtain ⟨c, rest, rfl, hFirst, -⟩ :=
        hWhole.exists_cons
      exact ⟨c, rfl, hFirst⟩
  | fraction hWhole hFraction =>
      obtain ⟨c, rest, rfl, hFirst, -⟩ :=
        hWhole.exists_cons
      exact ⟨c, rfl, hFirst⟩

/- To the scanner, such a text is a number. -/
theorem lexeme_of_denotes
    (hDenotes : Denotes text d) :
    Lexeme .number text := by
  cases hDenotes with
  | whole hWhole =>
      obtain ⟨c, rest, rfl, hFirst, hRest⟩ :=
        hWhole.exists_cons
      exact .whole hFirst hRest
  | fraction hWhole hFraction =>
      obtain ⟨c, rest, rfl, hFirst, hRest⟩ :=
        hWhole.exists_cons
      obtain ⟨d, decimals, rfl, hPoint, hDecimals⟩ :=
        hFraction.exists_cons
      exact .fraction hFirst hRest hPoint hDecimals

end Decimal

end OcScript

------------------------------------------------------------
-- Written Decimals
------------------------------------------------------------

namespace OcScript

namespace Decimal

theorem digits_toDigits
    (n : Nat) :
    Digits (Nat.toDigits 10 n) :=
  ⟨Nat.toDigits_ne_nil, fun _ hMem =>
    Nat.isDigit_of_mem_toDigits (by decide) (by decide)
      hMem⟩

theorem isDigit_of_mem_zeros
    {n : Nat}
    {c : Char}
    (hMem : c ∈ List.replicate n '0') :
    c.isDigit := by
  rw [List.eq_of_mem_replicate hMem]
  decide

/- Zeros behind the digits. -/
theorem denotes_zeros_behind
    (n e : Nat) :
    Denotes
      (Nat.toDigits 10 n ++ List.replicate e '0')
      ⟨10 ^ e * n, 0⟩ := by
  have hDigits := digits_toDigits n
  have hAll :
      Digits (Nat.toDigits 10 n ++ List.replicate e '0') :=
    ⟨by simp [hDigits.ne_nil],
      fun c hMem => (List.mem_append.mp hMem).elim
        (hDigits.isDigit c) isDigit_of_mem_zeros⟩
  have hDenotes := Denotes.whole hAll
  rwa [Nat.ofDigitChars_append,
    Nat.ofDigitChars_ten_toDigits,
    Nat.ofDigitChars_replicate_zero] at hDenotes

/- A point between the digits. -/
theorem denotes_point_inside
    {n whole places : Nat}
    (hSplit :
      whole + places = (Nat.toDigits 10 n).length)
    (hWhole : 0 < whole)
    (hPlaces : 0 < places) :
    Denotes
      ((Nat.toDigits 10 n).take whole ++
        '.' :: (Nat.toDigits 10 n).drop whole)
      ⟨n, -(places : Int)⟩ := by
  have hDigits := digits_toDigits n
  generalize hText : Nat.toDigits 10 n = text
    at hDigits hSplit ⊢
  have hFront : Digits (text.take whole) :=
    ⟨by
      rw [Ne, ← List.length_eq_zero_iff, List.length_take]
      omega,
      fun c hMem =>
        hDigits.isDigit c (List.mem_of_mem_take hMem)⟩
  have hBack : Digits (text.drop whole) :=
    ⟨by
      rw [Ne, ← List.length_eq_zero_iff, List.length_drop]
      omega,
      fun c hMem =>
        hDigits.isDigit c (List.mem_of_mem_drop hMem)⟩
  have hDenotes := Denotes.fraction hFront hBack
  rwa [List.take_append_drop, List.length_drop, ← hText,
    Nat.ofDigitChars_ten_toDigits, hText, ← hSplit,
    Nat.add_sub_cancel_left] at hDenotes

/- Zeros between the point and the digits. -/
theorem denotes_point_before
    (n zeros : Nat) :
    Denotes
      ('0' :: '.' ::
        (List.replicate zeros '0' ++ Nat.toDigits 10 n))
      ⟨n, -((zeros + (Nat.toDigits 10 n).length : Nat) :
        Int)⟩ := by
  have hDigits := digits_toDigits n
  have hFront : Digits ['0'] :=
    ⟨by simp, List.forall_mem_singleton.mpr (by decide)⟩
  have hBack :
      Digits (List.replicate zeros '0' ++
        Nat.toDigits 10 n) :=
    ⟨by simp [hDigits.ne_nil],
      fun c hMem => (List.mem_append.mp hMem).elim
        isDigit_of_mem_zeros (hDigits.isDigit c)⟩
  have hDenotes := Denotes.fraction hFront hBack
  rwa [Nat.ofDigitChars_append, Nat.ofDigitChars_append,
    show Nat.ofDigitChars 10 ['0'] 0 = 0 from rfl,
    Nat.ofDigitChars_replicate_zero, Nat.mul_zero,
    Nat.ofDigitChars_ten_toDigits, List.length_append,
    List.length_replicate] at hDenotes

/-
  The text of a decimal denotes a decimal of the same value.
  The two differ only where zeros were written behind the
  digits.
-/
theorem exists_denotes_toText
    (d : Decimal) :
    ∃ e, Denotes d.toText e ∧ e.value = d.value := by
  obtain ⟨n, exponent⟩ := d
  simp only [toText]
  split
  case isTrue hNone =>
    refine ⟨_, denotes_zeros_behind n exponent.toNat, ?_⟩
    have hExp : (exponent.toNat : Int) = exponent := by
      omega
    simp only [value]
    push_cast
    rw [← zpow_natCast, hExp, mul_one, mul_comm]
  case isFalse hSome =>
    split
    case isTrue hInside =>
      refine ⟨_, denotes_point_inside
        (Nat.sub_add_cancel hInside.le) (by omega)
        (by omega), ?_⟩
      rw [show -(((-exponent).toNat : Nat) : Int) =
        exponent by omega]
    case isFalse hInside =>
      refine ⟨_, denotes_point_before n _, ?_⟩
      rw [Nat.sub_add_cancel (not_lt.mp hInside),
        show -(((-exponent).toNat : Nat) : Int) =
          exponent by omega]

end Decimal

end OcScript
