/-
  Lineage.Json.Number

  Reading JSON numbers.

  A number without point and exponent whose magnitude fits 64 bits is an integer,
  `-0` apart.  Otherwise its digits are gathered into a 64-bit significand as long as
  they fit, the rest only count; the float nearest to the significand is then
  multiplied or divided by one power of ten.  (So the last digit of a long number may
  round twice; a number of at most fifteen digits with a small exponent is exact.)
-/
import Lineage.Json.Basic
import Lineage.Binary64.Arithmetic
import Lineage.Decimal.Reading

namespace Lineage.Json

/-- The greatest significand. -/
def maxSignificand : Nat := UInt64.size - 1

/-- Digits gathered so far. -/
structure Gathered where
  significand : Nat
  /-- Digits before the point that no longer fit. -/
  dropped : Nat := 0
  /-- Digits after the point that were taken in. -/
  places : Nat := 0
  /-- Whether a digit after the point no longer fitted. -/
  full : Bool := false

/-- Take in a digit before the point. -/
def Gathered.whole (g : Gathered) (digit : Nat) : Gathered :=
  let next := g.significand * 10 + digit
  if g.dropped = 0 ∧ next ≤ maxSignificand then { g with significand := next }
  else { g with dropped := g.dropped + 1 }

/-- Take in a digit after the point. -/
def Gathered.fraction (g : Gathered) (digit : Nat) : Gathered :=
  let next := g.significand * 10 + digit
  if !g.full ∧ next ≤ maxSignificand then
    { g with significand := next, places := g.places + 1 }
  else { g with full := true }

/-- The float of a power of ten. -/
def powerOfTen (n : Nat) : Binary64 :=
  Binary64.ofRatio false (Nat.pow 10 n) 1

/-- Multiply a float by a power of ten; `none` if that is too large. -/
def scale (rounds : Nat) (x : Binary64) (exponent : Int) : Option Binary64 :=
  if exponent.natAbs ≤ 308 then
    if 0 ≤ exponent then
      let y := x.mul (powerOfTen exponent.natAbs)
      if y.isFinite then some y else none
    else some (x.div (powerOfTen exponent.natAbs))
  else if x.isZero then some x
  else if 0 ≤ exponent then none
  else
    match rounds with
    | 0 => some .zero
    | rounds + 1 => scale rounds (x.div (powerOfTen 308)) (exponent + 308)

/-- The float of a sign, a significand and an exponent. -/
def floatOfParts (negative : Bool) (significand : Nat) (exponent : Int) : Json :=
  match scale 8 (Binary64.ofRatio false significand 1) exponent with
  | some x => .float (if negative then x.negate else x)
  | none => .unusable

/-- A number given by its sign, its digits, and whether it was written with a point or an
exponent. -/
def number (negative : Bool) (whole fraction : List Nat) (plain : Bool) (exponent : Int) : Json :=
  let g := fraction.foldl Gathered.fraction (whole.foldl Gathered.whole ⟨0, 0, 0, false⟩)
  if plain ∧ g.dropped = 0 then
    if !negative then .int g.significand
    else if g.significand = 0 then .float (.ofMagnitude true 0)
    else if g.significand ≤ 0x8000000000000000 then .int (-g.significand)
    else .float (Binary64.ofRatio true g.significand 1)
  else if 0x80000000 ≤ exponent.natAbs then
    -- An exponent beyond 32 bits is not computed with.
    if g.significand ≠ 0 ∧ 0 < exponent then .unusable else .float (.ofMagnitude negative 0)
  else floatOfParts negative g.significand (exponent + g.dropped - g.places)

/-- The digits at the front of a text, and the text after them. -/
def takeDigits : List Char → List Nat × List Char
  | [] => ([], [])
  | c :: rest =>
    match Numeral.digit? c with
    | some d => let (ds, after) := takeDigits rest; (d :: ds, after)
    | none => ([], c :: rest)

/-- The digits of an exponent whose sign has been read. -/
def takeMagnitude (negative : Bool) (text : List Char) : Option (Option Int × List Char) :=
  match takeDigits text with
  | ([], _) => none
  | (digits, after) =>
    let n : Int := (digits.foldl (fun acc d => acc * 10 + d) 0 : Nat)
    some (some (if negative then -n else n), after)

/-- The exponent at the front of a text, zero if there is none; `none` for a mark without
digits. -/
def takeExponent : List Char → Option (Option Int × List Char)
  | c :: rest =>
    if c = 'e' ∨ c = 'E' then
      match rest with
      | '-' :: rest => takeMagnitude true rest
      | '+' :: rest => takeMagnitude false rest
      | _ => takeMagnitude false rest
    else some (none, c :: rest)
  | [] => some (none, [])

/-- The digits after a point at the front of a text, if there is one. -/
def takeFraction : List Char → Option (Option (List Nat) × List Char)
  | '.' :: rest =>
    let (digits, after) := takeDigits rest
    if digits = [] then none else some (some digits, after)
  | text => some (none, text)

/-- A number whose sign has been read.  A leading zero is followed by no digit, and a point by at
least one. -/
def takeUnsigned (negative : Bool) (text : List Char) : Option (Json × List Char) :=
  let (whole, afterWhole) := takeDigits text
  if whole = [] ∨ (whole.head? = some 0 ∧ whole.length ≠ 1) then none
  else (takeFraction afterWhole).bind fun (fraction, afterFraction) =>
    (takeExponent afterFraction).map fun (exponent, after) =>
      let plain := fraction.isNone && exponent.isNone
      (number negative whole (fraction.getD []) plain (exponent.getD 0), after)

/-- The number at the front of a text. -/
def takeNumber : List Char → Option (Json × List Char)
  | '-' :: rest => takeUnsigned true rest
  | text => takeUnsigned false text

end Lineage.Json
