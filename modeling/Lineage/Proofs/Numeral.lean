/-
  Lineage.Proofs.Numeral

  Numerals are read back.

  The numeral of a number is the digits of its magnitude, after a sign if it is below
  zero, and reads as the number.
-/
import Lineage.Numeral

namespace Lineage.Numeral

/-- The digits of a number. -/
abbrev digits (n : Nat) : List Char := Nat.toDigits 10 n

theorem isDigit_of_mem_digits {n : Nat} {c : Char} (h : c ∈ digits n) : '0' ≤ c ∧ c ≤ '9' := by
  have hdigit := Nat.isDigit_of_mem_toDigits (by decide) (by decide) h
  simpa [Char.isDigit, Char.le_def] using hdigit

/-- A number other than the least one can be negated. -/
theorem lt_toInt {n : Int64} (h : n ≠ Int64.minValue) : -0x8000000000000000 < n.toInt := by
  have hlo := n.le_toInt
  have hne : n.toInt ≠ Int64.minValue.toInt := fun heq => h (Int64.toInt_inj.mp heq)
  rw [Int64.toInt_minValue] at hne
  omega

/-! ## Writing -/

theorem write_of_nonneg {n : Int64} (h : 0 ≤ n.toInt) : (write n).toList = digits n.toInt.toNat := by
  rw [write, Int.toString_eq_repr, Int.repr_eq_if, if_pos h, Nat.toList_repr]

theorem write_of_neg {n : Int64} (h : n.toInt < 0) :
    (write n).toList = '-' :: digits (-n.toInt).toNat := by
  rw [write, Int.toString_eq_repr, Int.repr_eq_if, if_neg (by omega), String.toList_append,
    Nat.toList_repr]
  rfl

/-! ## Reading -/

/-- Digits are read one after the other, as long as the value stays within the limit. -/
theorem magnitude_digits {limit : Nat} {overflow : NumeralError} {ds : List Char}
    (hds : ∀ c ∈ ds, '0' ≤ c ∧ c ≤ '9') {value : Nat} (h : Nat.ofDigitChars 10 ds value ≤ limit) :
    magnitude limit overflow value ds = .ok (Nat.ofDigitChars 10 ds value) := by
  have grows (ds : List Char) (n : Nat) : n ≤ Nat.ofDigitChars 10 ds n := by
    induction ds generalizing n with
    | nil => exact Nat.le_refl n
    | cons c ds ih =>
      rw [Nat.ofDigitChars_cons]
      exact Nat.le_trans (by omega) (ih _)
  induction ds generalizing value with
  | nil => rfl
  | cons c ds ih =>
    have hdigit : digit? c = some (c.toNat - '0'.toNat) := by
      rw [digit?, if_pos]
      simpa using hds c List.mem_cons_self
    rw [Nat.ofDigitChars_cons] at h ⊢
    have hnext := Nat.le_trans (grows ds _) h
    rw [Nat.mul_comm] at h hnext ⊢
    simp only [magnitude, hdigit, if_pos hnext]
    exact ih (fun c hc => hds c (List.mem_cons_of_mem _ hc)) h

theorem magnitude_toDigits {limit n : Nat} {overflow : NumeralError} (h : n ≤ limit) :
    magnitude limit overflow 0 (digits n) = .ok n := by
  rw [magnitude_digits (fun _ => isDigit_of_mem_digits), Nat.ofDigitChars_ten_toDigits]
  rwa [Nat.ofDigitChars_ten_toDigits]

theorem read_digits {n : Nat} (h : n ≤ 0x7FFFFFFFFFFFFFFF) :
    read (digits n) = .ok (Int64.ofInt n) := by
  have hsign (c : Char) (hc : '0' ≤ c ∧ c ≤ '9') : c ≠ '-' ∧ c ≠ '+' := by
    constructor
    · rintro rfl
      exact absurd hc (by decide)
    · rintro rfl
      exact absurd hc (by decide)
  have hmagnitude : magnitude 0x7FFFFFFFFFFFFFFF .tooLarge 0 (digits n) = .ok n :=
    magnitude_toDigits h
  cases hds : digits n with
  | nil => exact absurd hds Nat.toDigits_ne_nil
  | cons c ds =>
    rw [hds] at hmagnitude
    obtain ⟨hminus, hplus⟩ := hsign c (isDigit_of_mem_digits (hds ▸ List.mem_cons_self))
    rw [read, hmagnitude]
    · rfl
    · exact List.cons_ne_nil _ _
    · exact fun _ h => hminus (List.cons.inj h).1
    · exact fun _ h => hplus (List.cons.inj h).1

theorem read_minus_digits {n : Nat} (h : n ≤ 0x8000000000000000) :
    read ('-' :: digits n) = .ok (Int64.ofInt (-n)) := by
  rw [read, if_neg Nat.toDigits_ne_nil, magnitude_toDigits h]
  rfl

/-- A numeral is read as the number that it was written for. -/
theorem read_write (n : Int64) : read (write n).toList = .ok n := by
  have hlo := n.le_toInt
  have hhi := n.toInt_lt
  by_cases h : 0 ≤ n.toInt
  · rw [write_of_nonneg h, read_digits (by omega), Int.toNat_of_nonneg h, Int64.ofInt_toInt]
  · rw [write_of_neg (by omega), read_minus_digits (by omega), Int.toNat_of_nonneg (by omega),
      Int.neg_neg, Int64.ofInt_toInt]

end Lineage.Numeral
