import SchemaWeaver.Json.Printer
import SchemaWeaver.Json.Token
import Mathlib.Data.List.Basic

/-!
Tokens read back as they are written. A string ends at its own quote, because no quote inside it
stands alone; a number ends where no character follows that could go on with it.
-/

set_option autoImplicit false
set_option relaxedAutoImplicit false

namespace SchemaWeaver.Json

open Text (isDigit digitValue decimal)

/-! ## Strings -/

private theorem readString_hex {n : Nat} (control : n < 0x20) (rest : List Char) :
    readString ('\\' :: 'u' :: '0' :: '0' :: hexDigit (n / 16) :: hexDigit (n % 16) :: rest) =
      push (Char.ofNat n) (readString rest) := by
  have unit : hexUnit? '0' '0' (hexDigit (n / 16)) (hexDigit (n % 16)) = some n := by
    revert n
    decide
  have plain : isTrailing n = false ∧ isLeading n = false := by
    simp only [isTrailing, isLeading, Bool.and_eq_false_iff, decide_eq_false_iff_not]
    omega
  rw [readString, unit]
  simp only [plain.1, plain.2, Bool.false_eq_true, if_false]

theorem readString_escaped (c : Char) (rest : List Char) :
    readString (escaped c ++ rest) = push c (readString rest) := by
  unfold escaped
  split_ifs with quote slash back feed line carriage tab control
  · rw [quote]; rfl
  · rw [slash]; rfl
  · rw [back]; rfl
  · rw [feed]; rfl
  · rw [line]; rfl
  · rw [carriage]; rfl
  · rw [tab]; rfl
  · rw [List.cons_append]
    exact (readString_hex control rest).trans (by rw [Char.ofNat_toNat])
  · rw [List.singleton_append, readString]
    · rw [if_neg control]
    all_goals simp [quote, slash]

theorem readString_flatMap_escaped (s rest : List Char) :
    readString (s.flatMap escaped ++ '"' :: rest) = .ok (s, rest) := by
  induction s with
  | nil => rfl
  | cons c s ih =>
      rw [List.flatMap_cons, List.append_assoc, readString_escaped, ih]
      rfl

theorem quoted_append (s : String) (rest : List Char) :
    quoted s ++ rest = '"' :: (s.toList.flatMap escaped ++ '"' :: rest) := by
  simp [quoted]

/-! ## Whole numbers -/

/-- Whether a text does not go on with a number that ends before it. -/
def endsNumber (rest : List Char) : Bool :=
  rest.head?.all fun c => !isDigit c && c ≠ '.' && c ≠ 'e' && c ≠ 'E'

theorem absorb_eq {significand : Nat} {digits : List Char}
    (fits : Nat.ofDigitChars 10 digits significand < significandBound) :
    absorb significand digits = (Nat.ofDigitChars 10 digits significand, []) := by
  induction digits generalizing significand with
  | nil => rfl
  | cons d digits ih =>
      have next : 10 * significand + (d.toNat - '0'.toNat) = significand * 10 + digitValue d := by
        rw [digitValue, Nat.mul_comm]
      rw [Nat.ofDigitChars_cons, next] at fits ⊢
      have grows : significand * 10 + digitValue d ≤
          Nat.ofDigitChars 10 digits (significand * 10 + digitValue d) := by
        rw [Nat.ofDigitChars_eq_ofDigitChars_zero]
        have power : 1 ≤ 10 ^ digits.length := Nat.one_le_pow _ _ (by omega)
        have scaled := Nat.mul_le_mul_right (significand * 10 + digitValue d) power
        omega
      rw [absorb, if_pos (by omega), ih fits]

theorem isDigit_of_mem_decimal {n : Nat} {c : Char} (member : c ∈ decimal n) : isDigit c = true :=
  Nat.isDigit_of_mem_toDigits (by omega) (by omega) member

theorem ne_of_isDigit {d c : Char} (digit : isDigit d = true) (other : isDigit c = false) :
    d ≠ c := by
  rintro rfl
  rw [other] at digit
  cases digit

theorem isSpace_of_isDigit {d : Char} (digit : isDigit d = true) : isSpace d = false := by
  have blank {c : Char} (other : isDigit c = false) : d ≠ c := ne_of_isDigit digit other
  simp [isSpace, blank (c := ' ') rfl, blank (c := '\t') rfl, blank (c := '\n') rfl,
    blank (c := '\r') rfl]

theorem exists_decimal_eq_cons {n : Nat} (positive : 0 < n) :
    ∃ d digits, decimal n = d :: digits ∧ d ≠ '0' := by
  induction n using Nat.strongRecOn with
  | ind n ih =>
      rw [decimal, Nat.toDigits_eq_if (by omega)]
      split
      · refine ⟨_, _, rfl, ?_⟩
        rw [ne_eq, Nat.digitChar_eq_zero]
        omega
      · obtain ⟨d, digits, same, leading⟩ := ih (n / 10) (by omega) (by omega)
        refine ⟨d, digits ++ [(n % 10).digitChar], ?_, leading⟩
        rw [← List.cons_append, ← same, decimal]

private theorem readNumberTail_of_ends {rest : List Char} (ends : endsNumber rest = true)
    (negative : Bool) (significand : Nat) :
    readNumberTail negative significand 0 rest = .ok (wholeNumber negative significand, rest) := by
  unfold readNumberTail
  split
  · simp [endsNumber] at ends
  · simp [endsNumber] at ends
  · simp [endsNumber] at ends
  · rfl

private theorem digits_of_ends {rest : List Char} (ends : endsNumber rest = true) :
    rest.head?.any isDigit = false ∧ rest.takeWhile isDigit = [] ∧
      rest.dropWhile isDigit = rest := by
  cases rest with
  | nil => exact ⟨rfl, rfl, rfl⟩
  | cons c rest =>
      have other : isDigit c = false := by
        simp only [endsNumber, List.head?_cons, Option.all_some, Bool.and_eq_true] at ends
        simpa using ends.1.1.1
      simp [other]

theorem readNumber_decimal {n : Nat} (fits : n < significandBound) {rest : List Char}
    (ends : endsNumber rest = true) (negative : Bool) :
    readNumber negative (decimal n ++ rest) = .ok (wholeNumber negative n, rest) := by
  have tail := readNumberTail_of_ends ends negative
  obtain ⟨digit, none, all⟩ := digits_of_ends ends
  by_cases zero : n = 0
  · rw [zero, decimal, Nat.toDigits_zero, List.singleton_append, readNumber, if_pos rfl, digit]
    exact tail 0
  · obtain ⟨d, digits, same, leading⟩ := exists_decimal_eq_cons (Nat.pos_of_ne_zero zero)
    have each : ∀ c ∈ d :: digits, isDigit c = true := fun c member =>
      isDigit_of_mem_decimal (same ▸ member)
    have later : ∀ c ∈ digits, isDigit c = true := fun c member =>
      each c (List.mem_cons_of_mem _ member)
    have value : Nat.ofDigitChars 10 digits (digitValue d) = n := by
      have whole : Nat.ofDigitChars 10 (decimal n) 0 = n := Nat.ofDigitChars_ten_toDigits
      rw [same, Nat.ofDigitChars_cons, Nat.mul_zero, Nat.zero_add] at whole
      exact whole
    have taken : (digits ++ rest).takeWhile isDigit = digits := by
      rw [List.takeWhile_append_of_pos later, none, List.append_nil]
    have left : (digits ++ rest).dropWhile isDigit = rest := by
      rw [List.dropWhile_append_of_pos later, all]
    rw [same, List.cons_append, readNumber, if_neg leading, if_pos (each d List.mem_cons_self),
      taken, left, absorb_eq (value.symm ▸ fits), value]
    exact tail n

end SchemaWeaver.Json
