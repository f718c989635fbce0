import BodyText.Markup.Reference
import Mathlib.Data.List.TakeWhile
import Mathlib.Data.Nat.Digits.Defs

/-!
# The numbers of references

The number of a reference is counted digit by digit, and kept within the greatest number at every digit,
once behind the product and once more behind the sum (`Reference.addDigit`). That comes to the number that
the digits write, cut down once at the end (`Reference.foldl_addDigit`): a number that has grown past the
greatest stays past it, so nothing is lost by cutting it down early. It holds for digits of any length, with
zeros before them and digits behind the one that goes too far.

What the digits write is told place by place (`Reference.decimal_eq_ofDigits`), and a number that is written
in decimal is read back (`Reference.number?_toDigits`). Which texts have a number, and which one, is
`Reference.number?_saturates`.
-/

namespace BodyText

namespace Reference

/-! ### What digits write -/

/-- The number that decimal digits write. -/
def decimal (digits : List Char) : Nat :=
  digits.foldl (fun number d => number * 10 + (d.toNat - '0'.toNat)) 0

/-- Digits behind a number move it to the left by as many places, and are added place by place. -/
theorem foldl_eq_add_ofDigits (digits : List Char) (number : Nat) :
    digits.foldl (fun number d => number * 10 + (d.toNat - '0'.toNat)) number =
      number * 10 ^ digits.length +
        Nat.ofDigits 10 (digits.reverse.map fun d => d.toNat - '0'.toNat) := by
  induction digits generalizing number with
  | nil => simp
  | cons d digits ih =>
    rw [List.foldl_cons, List.map_reverse, List.map_cons, Nat.ofDigits_reverse_cons, List.length_map,
      ← List.map_reverse, List.length_cons]
    calc digits.foldl (fun number d => number * 10 + (d.toNat - '0'.toNat))
          (number * 10 + (d.toNat - '0'.toNat))
        = (number * 10 + (d.toNat - '0'.toNat)) * 10 ^ digits.length +
            Nat.ofDigits 10 (digits.reverse.map fun d => d.toNat - '0'.toNat) := ih _
      _ = number * 10 ^ (digits.length + 1) +
            (Nat.ofDigits 10 (digits.reverse.map fun d => d.toNat - '0'.toNat) +
              10 ^ digits.length * (d.toNat - '0'.toNat)) := by ring

/-- The last digit counts ones, the one before it tens, and so on. -/
theorem decimal_eq_ofDigits (digits : List Char) :
    decimal digits = Nat.ofDigits 10 (digits.reverse.map fun d => d.toNat - '0'.toNat) := by
  rw [decimal, foldl_eq_add_ofDigits, Nat.zero_mul, Nat.zero_add]

theorem decimal_eq_ofDigitChars (digits : List Char) :
    decimal digits = Nat.ofDigitChars 10 digits 0 := by
  rw [decimal, Nat.ofDigitChars_eq_foldl]
  exact congrArg (digits.foldl · 0) (funext₂ fun number d => by rw [Nat.mul_comm])

/-- The digits of a number write that number, also behind zeros. -/
theorem decimal_toDigits (zeros n : Nat) :
    decimal (List.replicate zeros '0' ++ Nat.toDigits 10 n) = n := by
  rw [decimal_eq_ofDigitChars, Nat.ofDigitChars_append, Nat.ofDigitChars_replicate_zero, Nat.mul_zero,
    Nat.ofDigitChars_ten_toDigits]

/-! ### Counting within the greatest number -/

theorem maxNumber_eq : maxNumber = 2 ^ 32 - 1 := rfl

/-- It makes no difference to the next number whether this one was cut down. -/
theorem addDigit_min (number : Nat) (d : Char) :
    addDigit (min number maxNumber) d =
      min (number * 10 + (d.toNat - '0'.toNat)) maxNumber := by
  rw [addDigit]
  omega

/-- Counting with a greatest number comes to the number itself, or to the greatest. -/
theorem foldl_addDigit (digits : List Char) (number : Nat) :
    digits.foldl addDigit (min number maxNumber) =
      min (digits.foldl (fun number d => number * 10 + (d.toNat - '0'.toNat)) number)
        maxNumber := by
  -- for every number to start from, also past the greatest: a digit may have gone too far already
  induction digits generalizing number with
  | nil => rfl
  | cons d digits ih => rw [List.foldl_cons, List.foldl_cons, addDigit_min, ih]

/-! ### Where the digits stand -/

/-- A numeric reference with all the digits that stand behind `&#`. -/
structure IsNumeric (token digits : List Char) : Prop where
  /-- There are digits. -/
  ne_nil : digits ≠ []
  /-- They are digits. -/
  isDigit : ∀ d ∈ digits, d.isDigit = true
  /-- They stand behind `&#`, and no digit more behind them. -/
  eq : ∃ rest, token = '&' :: '#' :: (digits ++ rest) ∧ ∀ d ∈ rest.head?, d.isDigit = false

variable {token digits : List Char}

/-- The digits of a numeric reference are the longest run of digits behind `&#`. -/
theorem isNumeric_iff : IsNumeric token digits ↔
    ∃ cs, token = '&' :: '#' :: cs ∧ cs.takeWhile Char.isDigit = digits ∧ digits ≠ [] := by
  constructor
  · rintro ⟨hne, hdigits, rest, rfl, hrest⟩
    have hnone : rest.takeWhile Char.isDigit = [] := by
      cases rest with
      | nil => rfl
      | cons d rest => exact List.takeWhile_cons_of_neg (by simp [hrest d rfl])
    refine ⟨digits ++ rest, rfl, ?_, hne⟩
    rw [List.takeWhile_append_of_pos hdigits, hnone, List.append_nil]
  · rintro ⟨cs, rfl, rfl, hne⟩
    refine ⟨hne, fun d => List.mem_takeWhile_imp, cs.dropWhile Char.isDigit, ?_, fun d hd => ?_⟩
    · rw [List.takeWhile_append_dropWhile]
    · have hhead := List.head?_dropWhile_not Char.isDigit cs
      rw [Option.mem_def.1 hd] at hhead
      simpa using hhead

/-- One digit behind `&#` is enough. -/
theorem exists_isNumeric_iff : (∃ digits, IsNumeric token digits) ↔
    ∃ d rest, token = '&' :: '#' :: d :: rest ∧ d.isDigit = true := by
  constructor
  · rintro ⟨digits, hne, hdigits, rest, rfl, -⟩
    obtain ⟨d, digits, rfl⟩ := List.exists_cons_of_ne_nil hne
    exact ⟨d, digits ++ rest, rfl, hdigits d List.mem_cons_self⟩
  · rintro ⟨d, rest, rfl, hd⟩
    have hne : (d :: rest).takeWhile Char.isDigit ≠ [] := by simp [hd]
    exact ⟨_, isNumeric_iff.2 ⟨d :: rest, rfl, rfl, hne⟩⟩

/-! ### The number -/

theorem number?_of_isNumeric (h : IsNumeric token digits) :
    number? token = some (min (decimal digits) maxNumber) := by
  obtain ⟨cs, rfl, rfl, hne⟩ := isNumeric_iff.1 h
  rw [number?, if_neg (by simpa using hne)]
  exact congrArg some (foldl_addDigit _ 0)

theorem isNumeric_of_number? {number : Nat} (h : number? token = some number) :
    ∃ digits, IsNumeric token digits := by
  rw [number?.eq_def] at h
  split at h
  · rename_i cs
    split at h
    · cases h
    · rename_i hne
      exact ⟨_, isNumeric_iff.2 ⟨cs, rfl, rfl, by simpa using hne⟩⟩
  · cases h

theorem number?_eq_some_iff {number : Nat} : number? token = some number ↔
    ∃ digits, IsNumeric token digits ∧ number = min (decimal digits) maxNumber := by
  constructor
  · intro h
    obtain ⟨digits, hdigits⟩ := isNumeric_of_number? h
    refine ⟨digits, hdigits, ?_⟩
    rw [number?_of_isNumeric hdigits] at h
    exact (Option.some.inj h).symm
  · rintro ⟨digits, hdigits, rfl⟩
    exact number?_of_isNumeric hdigits

theorem isSome_number?_iff : (number? token).isSome = true ↔
    ∃ d rest, token = '&' :: '#' :: d :: rest ∧ d.isDigit = true := by
  rw [← exists_isNumeric_iff, Option.isSome_iff_exists]
  constructor
  · rintro ⟨number, h⟩
    exact isNumeric_of_number? h
  · rintro ⟨digits, h⟩
    exact ⟨_, number?_of_isNumeric h⟩

/-- A number that is written in a reference is read from it, also with zeros before it and whatever else
than a digit behind it. -/
theorem number?_toDigits (zeros n : Nat) {rest : List Char}
    (hrest : ∀ d ∈ rest.head?, d.isDigit = false) :
    number? ('&' :: '#' :: (List.replicate zeros '0' ++ Nat.toDigits 10 n ++ rest)) =
      some (min n maxNumber) := by
  have hne : List.replicate zeros '0' ++ Nat.toDigits 10 n ≠ [] :=
    List.append_ne_nil_of_right_ne_nil _ Nat.toDigits_ne_nil
  have hdigits : ∀ d ∈ List.replicate zeros '0' ++ Nat.toDigits 10 n, d.isDigit = true := by
    intro d hd
    rcases List.mem_append.1 hd with hd | hd
    · rw [(List.mem_replicate.1 hd).2]
      rfl
    · exact Nat.isDigit_of_mem_toDigits (by decide) (by decide) hd
  rw [number?_of_isNumeric ⟨hne, hdigits, rest, rfl, hrest⟩, decimal_toDigits]

/-- **The number of a reference saturates exactly.** A text has a number if and only if it starts with `&#`
and a digit. The number is what all the digits behind `&#` write, place by place, however many they are and
whatever follows them, or the greatest number where that is less. -/
theorem number?_saturates (token : List Char) :
    ((number? token).isSome = true ↔
        ∃ d rest, token = '&' :: '#' :: d :: rest ∧ d.isDigit = true) ∧
      ∀ number, number? token = some number ↔
        ∃ digits, IsNumeric token digits ∧
          number = min (2 ^ 32 - 1)
            (Nat.ofDigits 10 (digits.reverse.map fun d => d.toNat - '0'.toNat)) := by
  refine ⟨isSome_number?_iff, fun number => ?_⟩
  rw [number?_eq_some_iff]
  refine exists_congr fun digits => and_congr_right fun _ => ?_
  rw [Nat.min_comm, decimal_eq_ofDigits, maxNumber_eq]

example : number? "&#0042949672960x;".toList = some maxNumber := by decide

/-! ### What is written for a number -/

end Reference

end BodyText
