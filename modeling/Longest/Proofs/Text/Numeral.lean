import Longest.Text.Numeral
import Mathlib.Data.Int.Basic

/-!
# Which texts are numerals

A decimal is a nonempty run of digits, and the number that it stands for is
the one that core's `Nat.ofDigitChars` finds; zeros in front do not matter.
A numeral is a decimal with at most one sign in front of it.  Reading
accepts the numerals and nothing else: `integer?` all of them, and `word?`
those of signed words.
-/

namespace Longest.Text.Numeral

/-- The digits write a number in decimal. -/
structure IsDecimal (number : Nat) (digits : List Char) : Prop where
  nonempty : digits ≠ []
  isDigit : ∀ character ∈ digits, character.isDigit = true
  number : Nat.ofDigitChars 10 digits 0 = number

/-- The text writes an integer in decimal, with or without a sign. -/
inductive IsNumeral : Int → List Char → Prop where
  | unsigned
      {number : Nat} {digits : List Char}
      (decimal : IsDecimal number digits) :
      IsNumeral number digits
  | plus
      {number : Nat} {digits : List Char}
      (decimal : IsDecimal number digits) :
      IsNumeral number ('+' :: digits)
  | minus
      {number : Nat} {digits : List Char}
      (decimal : IsDecimal number digits) :
      IsNumeral (-number) ('-' :: digits)

/-! ## Texts of numbers -/

/-- Any number of zeros may stand in front of the digits. -/
theorem isDecimal_zeros_append (zeros number : Nat) :
    IsDecimal number (List.replicate zeros '0' ++ Nat.toDigits 10 number) where
  nonempty := by
    have nonempty : 0 < (Nat.toDigits 10 number).length :=
      Nat.length_toDigits_pos
    exact List.append_ne_nil_of_right_ne_nil _
      (List.ne_nil_of_length_pos nonempty)
  isDigit := by
    intro character member
    rcases List.mem_append.mp member with isZero | isDigit
    · rw [List.eq_of_mem_replicate isZero]
      rfl
    · exact Nat.isDigit_of_mem_toDigits (by decide) (by decide) isDigit
  number := by
    rw [Nat.ofDigitChars_append, Nat.ofDigitChars_replicate_zero, Nat.mul_zero,
      Nat.ofDigitChars_ten_toDigits]

theorem exists_isNumeral (number : Int) : ∃ text, IsNumeral number text := by
  rcases Int.eq_nat_or_neg number with ⟨magnitude, rfl | rfl⟩
  · exact ⟨_, .unsigned (isDecimal_zeros_append 0 magnitude)⟩
  · exact ⟨_, .minus (isDecimal_zeros_append 0 magnitude)⟩

theorem IsNumeral.ne_nil
    {number : Int} {text : List Char} (numeral : IsNumeral number text) :
    text ≠ [] := by
  cases numeral with
  | unsigned decimal => exact decimal.nonempty
  | plus decimal => exact List.cons_ne_nil _ _
  | minus decimal => exact List.cons_ne_nil _ _

theorem IsNumeral.sign_or_isDigit
    {number : Int} {text : List Char} (numeral : IsNumeral number text) :
    ∀ character ∈ text, character = '+' ∨ character = '-' ∨
      character.isDigit = true := by
  intro character member
  cases numeral with
  | unsigned decimal => exact Or.inr (Or.inr (decimal.isDigit character member))
  | plus decimal =>
      exact (List.mem_cons.mp member).imp_right fun isDigit =>
        Or.inr (decimal.isDigit character isDigit)
  | minus decimal =>
      exact Or.inr
        ((List.mem_cons.mp member).imp_right (decimal.isDigit character))

/-! ## Reading -/

theorem digit?_eq_ite (character : Char) :
    digit? character =
      if character.isDigit = true then some (character.toNat - '0'.toNat)
      else none :=
  rfl

theorem continueBy_eq_some_iff {start number : Nat} {digits : List Char} :
    continueBy start digits = some number ↔
      (∀ character ∈ digits, character.isDigit = true) ∧
        Nat.ofDigitChars 10 digits start = number := by
  induction digits generalizing start with
  | nil => simp [continueBy]
  | cons character digits induction =>
      rw [continueBy, digit?_eq_ite, Nat.ofDigitChars_cons,
        List.forall_mem_cons]
      by_cases isDigit : character.isDigit = true
      · simp only [isDigit, if_true, true_and]
        exact induction
      · simp [isDigit]

theorem natural?_eq_some_iff {number : Nat} {text : List Char} :
    natural? text = some number ↔ IsDecimal number text := by
  cases text with
  | nil =>
      constructor
      · intro found
        cases found
      · intro decimal
        exact absurd rfl decimal.nonempty
  | cons character digits =>
      rw [natural?.eq_def]
      refine continueBy_eq_some_iff.trans ⟨?_, ?_⟩
      · rintro ⟨isDigit, isNumber⟩
        exact ⟨List.cons_ne_nil _ _, isDigit, isNumber⟩
      · intro decimal
        exact ⟨decimal.isDigit, decimal.number⟩

/--
The integers are read from their numerals.  A sign is no digit, so the digits of
an unsigned numeral are not taken for a signed one.
-/
theorem integer?_eq_some_iff {number : Int} {text : List Char} :
    integer? text = some number ↔ IsNumeral number text := by
  constructor
  · intro found
    rw [integer?.eq_def] at found
    split at found
    · rcases Option.map_eq_some_iff.mp found with ⟨magnitude, read, rfl⟩
      exact .plus (natural?_eq_some_iff.mp read)
    · rcases Option.map_eq_some_iff.mp found with ⟨magnitude, read, rfl⟩
      exact .minus (natural?_eq_some_iff.mp read)
    · rcases Option.map_eq_some_iff.mp found with ⟨magnitude, read, rfl⟩
      exact .unsigned (natural?_eq_some_iff.mp read)
  · intro numeral
    cases numeral with
    | unsigned decimal =>
        rw [integer?.eq_def]
        split
        · exact absurd (decimal.isDigit '+' List.mem_cons_self) (by decide)
        · exact absurd (decimal.isDigit '-' List.mem_cons_self) (by decide)
        · rw [natural?_eq_some_iff.mpr decimal]
          rfl
    | plus decimal =>
        rw [integer?, natural?_eq_some_iff.mpr decimal]
        rfl
    | minus decimal =>
        rw [integer?, natural?_eq_some_iff.mpr decimal]
        rfl

theorem inWordRange_iff {number : Int} :
    inWordRange number = true ↔ (Int64.ofInt number).toInt = number := by
  simp only [inWordRange, Bool.and_eq_true, decide_eq_true_eq]
  constructor
  · rintro ⟨notBelow, notAbove⟩
    exact Int64.toInt_ofInt_of_le notBelow
      (Int.lt_of_le_of_lt notAbove (by decide))
  · intro same
    rw [← same]
    exact ⟨Int64.minValue_le_toInt _, Int64.toInt_le _⟩

/-- The words are read from the numerals of their numbers. -/
theorem word?_eq_some_iff {word : Int64} {text : List Char} :
    word? text = some word ↔ IsNumeral word.toInt text := by
  rw [← integer?_eq_some_iff, word?]
  cases integer? text with
  | none => simp
  | some number =>
      simp only [Option.some.injEq, Option.ite_none_right_eq_some,
        inWordRange_iff]
      constructor
      · rintro ⟨same, rfl⟩
        exact same.symm
      · rintro rfl
        rw [Int64.ofInt_toInt]
        exact ⟨rfl, rfl⟩

example :
    word? "+007".toList = some 7 ∧ word? "-".toList = none ∧
      word? "1_0".toList = none := by
  decide

example :
    word? "-9223372036854775808".toList = some Int64.minValue ∧
      word? "9223372036854775808".toList = none := by
  decide

end Longest.Text.Numeral
