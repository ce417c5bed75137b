/-
  Lineage.Yaml.Scalar

  What an unquoted YAML scalar stands for: null, a boolean, a number or a text.

  An integer fits 128 bits, signed or unsigned.  Of those only the ones that fit 64
  bits can be used for anything.
-/
import Lineage.Json.Basic
import Lineage.Decimal.Reading

namespace Lineage.Yaml

/-- Split a sign off a numeral.  Whether it was a minus. -/
def splitSign : List Char → Bool × List Char
  | '-' :: rest => (true, rest)
  | '+' :: rest => (false, rest)
  | rest => (false, rest)

/-- Whether a text consists of digits of which the first is a needless zero.  Such a text is no
number. -/
def isPadded (text : List Char) : Bool :=
  match (splitSign text).2 with
  | '0' :: rest => !rest.isEmpty && rest.all Char.isDigit
  | _ => false

/-- The value of a digit in bases up to sixteen. -/
def digitValue? (base : Nat) (c : Char) : Option Nat :=
  let value :=
    if c.isDigit then c.toNat - '0'.toNat
    else if 'a' ≤ c && c ≤ 'f' then c.toNat - 'a'.toNat + 10
    else if 'A' ≤ c && c ≤ 'F' then c.toNat - 'A'.toNat + 10
    else base
  if value < base then some value else none

/-- The value of at least one digit. -/
def natural? (base : Nat) (digits : List Char) : Option Nat :=
  if digits.isEmpty then none
  else (digits.mapM (digitValue? base)).map fun values => values.foldl (fun n d => n * base + d) 0

/-- The integer that a text is, in base ten or, marked so, in base sixteen, eight or two. -/
def integer? (text : List Char) : Option Int :=
  if isPadded text then none
  else
    let (negative, body) := splitSign text
    let magnitude := match body with
      | '0' :: 'x' :: digits => natural? 16 digits
      | '0' :: 'o' :: digits => natural? 8 digits
      | '0' :: 'b' :: digits => natural? 2 digits
      | digits => natural? 10 digits
    (magnitude.map fun n => if negative then -(n : Int) else n).filter fun n =>
      -0x80000000000000000000000000000000 ≤ n && n < 0x100000000000000000000000000000000

/-- An integer as a value. -/
def integerValue (n : Int) : Json :=
  if -0x8000000000000000 ≤ n ∧ n < 0x10000000000000000 then .int n else .unusable

/-- The float that a text is. -/
def float? (text : List Char) : Option Binary64 :=
  let (negative, body) := splitSign text
  if body ∈ [".inf", ".Inf", ".INF"].map String.toList then
    some (.ofMagnitude negative Binary64.infiniteMagnitude)
  else if text ∈ [".nan", ".NaN", ".NAN"].map String.toList then some .nan
  else (Decimal.read text).filter Binary64.isFinite

/-- The boolean that a text is. -/
def boolean? (text : List Char) : Option Bool :=
  if text ∈ ["true", "True", "TRUE"].map String.toList then some true
  else if text ∈ ["false", "False", "FALSE"].map String.toList then some false
  else none

/-- Whether a text is a name of null. -/
def isNull (text : List Char) : Bool :=
  text ∈ ["null", "Null", "NULL", "~"].map String.toList

/-- The value of an unquoted scalar: what it is first of null, a boolean, an integer, a float and a
text. -/
def plainValue (text : List Char) : Json :=
  if text.isEmpty || isNull text then .null
  else
    match boolean? text, integer? text with
    | some b, _ => .bool b
    | none, some n => integerValue n
    | none, none =>
      match if isPadded text then none else float? text with
      | some x => .float x
      | none => .str (String.ofList text)

end Lineage.Yaml
