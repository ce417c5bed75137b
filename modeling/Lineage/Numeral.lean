/-
  Lineage.Numeral

  Signed decimal numerals for 64-bit integers.

  A numeral is an optional sign and at least one ASCII digit.  Digits are read from
  the left, and the first thing wrong decides the error: a character that is no
  digit, or a prefix whose value has left the range.
-/
namespace Lineage

/-- What can be wrong with a numeral. -/
inductive NumeralError where
  | empty
  | invalidDigit
  | tooLarge
  | tooSmall
  deriving DecidableEq

/-- The text of the error. -/
def NumeralError.message : NumeralError → String
  | .empty => "cannot parse integer from empty string"
  | .invalidDigit => "invalid digit found in string"
  | .tooLarge => "number too large to fit in target type"
  | .tooSmall => "number too small to fit in target type"

namespace Numeral

/-- The value of an ASCII digit. -/
def digit? (c : Char) : Option Nat :=
  if '0' ≤ c && c ≤ '9' then some (c.toNat - '0'.toNat) else none

/-- Continue a magnitude with more digits, stopping where it exceeds `limit`. -/
def magnitude (limit : Nat) (overflow : NumeralError) (value : Nat) :
    List Char → Except NumeralError Nat
  | [] => .ok value
  | c :: rest =>
    match digit? c with
    | none => .error .invalidDigit
    | some d =>
      let next := value * 10 + d
      if next ≤ limit then magnitude limit overflow next rest else .error overflow

/-- Read a numeral that fills the whole text. -/
def read : List Char → Except NumeralError Int64
  | [] => .error .empty
  | '-' :: digits =>
    if digits = [] then .error .invalidDigit
    else (magnitude 0x8000000000000000 .tooSmall 0 digits).map fun n => Int64.ofInt (-n)
  | '+' :: digits =>
    if digits = [] then .error .invalidDigit
    else (magnitude 0x7FFFFFFFFFFFFFFF .tooLarge 0 digits).map fun n => Int64.ofInt n
  | digits => (magnitude 0x7FFFFFFFFFFFFFFF .tooLarge 0 digits).map fun n => Int64.ofInt n

/-- The shortest numeral of an integer. -/
def write (n : Int64) : String :=
  toString n.toInt

/-- Reading stays within the limit. -/
theorem magnitude_le {limit : Nat} {overflow : NumeralError} {digits : List Char} :
    ∀ {value n : Nat}, value ≤ limit → magnitude limit overflow value digits = .ok n →
      n ≤ limit := by
  induction digits with
  | nil => intro value n hv h; simp only [magnitude, Except.ok.injEq] at h; omega
  | cons c rest ih =>
    intro value n hv h
    simp only [magnitude] at h
    split at h
    · cases h
    · split at h
      · rename_i hle; exact ih hle h
      · cases h

end Numeral

end Lineage
