/-
  Lineage.Decimal.Reading

  Reading binary64 numbers from decimal text, correctly rounded.

  The text is an optional sign followed by `inf`, `infinity` or `nan` in any case,
  or by digits with an optional point among or around them and an optional
  exponent.  At least one digit is required, and the whole text has to be used.
-/
import Lineage.Numeral
import Lineage.Decimal.Shortest

namespace Lineage.Decimal

/-- The number nearest to a decimal.  Decimals beyond 10 ^ ±400 need no arithmetic. -/
def toBinary64 (negative : Bool) (d : Decimal) : Binary64 :=
  let size : Int := d.exponent + (Nat.toDigits 10 d.digits).length
  if d.digits = 0 ∨ size < -400 then .ofMagnitude negative 0
  else if 400 < size then .ofMagnitude negative Binary64.infiniteMagnitude
  else .ofRatio negative (d.digits * Nat.pow 10 d.exponent.toNat) (Nat.pow 10 (-d.exponent).toNat)

/-- The value of a run of digits and the text after it. -/
def digitRun (value : Nat) : List Char → Nat × List Char
  | [] => (value, [])
  | c :: rest =>
    match Numeral.digit? c with
    | some d => digitRun (value * 10 + d) rest
    | none => (value, c :: rest)

/-- Read an exponent mark with a sign and digits that fill the rest of the text. -/
def readExponent : List Char → Option Int
  | [] => some 0
  | c :: rest =>
    if c = 'e' ∨ c = 'E' then
      let (negative, digits) := match rest with
        | '-' :: r => (true, r)
        | '+' :: r => (false, r)
        | r => (false, r)
      let (value, after) := digitRun 0 digits
      if digits ≠ [] ∧ after = [] then some (if negative then -value else value) else none
    else none

/-- Read digits with an optional point and exponent. -/
def readUnsigned (text : List Char) : Option Decimal :=
  let (whole, afterWhole) := digitRun 0 text
  let wholeLength := text.length - afterWhole.length
  let (value, after, places) := match afterWhole with
    | '.' :: rest =>
      let (value, after) := digitRun whole rest
      (value, after, rest.length - after.length)
    | rest => (whole, rest, 0)
  if wholeLength + places = 0 then none
  else (readExponent after).map fun exponent => ⟨value, exponent - places⟩

/-- Read a number that fills the whole text. -/
def read (text : List Char) : Option Binary64 :=
  let (negative, body) := match text with
    | '-' :: rest => (true, rest)
    | '+' :: rest => (false, rest)
    | rest => (false, rest)
  let word := String.ofList (body.map Char.toLower)
  if word = "nan" then some (.ofMagnitude negative Binary64.nan.magnitude)
  else if word = "inf" ∨ word = "infinity" then some (.ofMagnitude negative Binary64.infiniteMagnitude)
  else (readUnsigned body).map (toBinary64 negative)

/-- A run of digits splits the text. -/
theorem digitRun_suffix (text : List Char) : ∀ value, (digitRun value text).2 <:+ text := by
  induction text with
  | nil => intro value; exact List.suffix_refl _
  | cons c rest ih =>
    intro value
    simp only [digitRun]
    split
    · exact (ih _).trans (List.suffix_cons _ _)
    · exact List.suffix_refl _

end Lineage.Decimal
