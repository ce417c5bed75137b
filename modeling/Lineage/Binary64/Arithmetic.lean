/-
  Lineage.Binary64.Arithmetic

  Arithmetic on binary64 numbers.

  Sum, difference, product, quotient and real powers are the machine's own
  operations on the bits.  The remainder is exact: the integer remainder of the two
  significands at their common exponent, with the sign of the dividend.  Negation
  and absolute value act on the sign bit alone, also on NaN.
-/
import Lineage.Binary64.Basic

namespace Lineage.Binary64

/-- The machine number with these bits. -/
def toFloat (x : Binary64) : Float := Float.ofBits x.bits

/-- The bits of a machine number. -/
def ofFloat (f : Float) : Binary64 := ⟨f.toBits⟩

def add (x y : Binary64) : Binary64 := ofFloat (x.toFloat + y.toFloat)
def sub (x y : Binary64) : Binary64 := ofFloat (x.toFloat - y.toFloat)
def mul (x y : Binary64) : Binary64 := ofFloat (x.toFloat * y.toFloat)
def div (x y : Binary64) : Binary64 := ofFloat (x.toFloat / y.toFloat)

/-- Flip the sign bit. -/
def negate (x : Binary64) : Binary64 :=
  ofMagnitude (!x.isNegative) x.magnitude

/-- Clear the sign bit. -/
def abs (x : Binary64) : Binary64 :=
  ofMagnitude false x.magnitude

/-- The exact remainder of `x` by `y`, with the sign of `x`. -/
def remainder (x y : Binary64) : Binary64 :=
  if x.isNaN || y.isNaN || !x.isFinite || y.isZero then nan
  else if !y.isFinite then x
  else
    let common := min x.exponent y.exponent
    let a := x.significand <<< (x.exponent - common).toNat
    let b := y.significand <<< (y.exponent - common).toNat
    ofRatio x.isNegative ((a % b) <<< common.toNat) (1 <<< (-common).toNat)

/-- A real power. -/
def power (x y : Binary64) : Binary64 :=
  ofFloat (Float.pow x.toFloat y.toFloat)

/-- `result · base ^ exponent` by squaring, at most `rounds` times. -/
def powerLoop (rounds : Nat) (base result : Float) (exponent : Nat) : Float :=
  match rounds with
  | 0 => result
  | rounds + 1 =>
    let result := if exponent % 2 = 1 then result * base else result
    let exponent := exponent / 2
    if exponent = 0 then result else powerLoop rounds (base * base) result exponent

/-- An integer power, by squaring; a negative exponent takes the reciprocal at the end. -/
def integerPower (x : Binary64) (exponent : Int) : Binary64 :=
  let power := powerLoop 64 x.toFloat 1 exponent.natAbs
  ofFloat (if exponent < 0 then 1 / power else power)

/-- Negating twice gives the number back. -/
theorem negate_negate (x : Binary64) : x.negate.negate = x := by
  simp [negate, isNegative_ofMagnitude _ x.magnitude_lt, magnitude_ofMagnitude _ x.magnitude_lt,
    ofMagnitude_self]

end Lineage.Binary64
