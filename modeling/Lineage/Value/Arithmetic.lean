/-
  Lineage.Value.Arithmetic

  Arithmetic on values.

  Two integers give an integer or, where the result leaves 64 bits, `E_INVARG`.  As
  soon as one side is a float the other is rounded to one, and a result that is
  infinite or no number is `E_FLOAT`.  A divisor that is zero is `E_DIV` whatever is
  divided.  `+` also joins two texts or two lists.
-/
import Lineage.Value.Basic

namespace Lineage.Value

/-- An integer result, if it fits 64 bits. -/
def checkedInt (n : Int) : Except ScriptError Value :=
  if -0x8000000000000000 ≤ n ∧ n < 0x8000000000000000 then .ok (.int (Int64.ofInt n))
  else .error ErrorCode.badArgument

/-- A float result, if it is finite. -/
def checkedFloat (x : Binary64) : Except ScriptError Value :=
  if x.isFinite then .ok (.float x) else .error ErrorCode.float

/-- The float that an integer is rounded to beside another float. -/
def floatOf (n : Int64) : Binary64 :=
  Binary64.ofInt n.toInt

/-- Two numbers under one operation, as integers if both are. -/
def numeric (onInts : Int → Int → Except ScriptError Value)
    (onFloats : Binary64 → Binary64 → Except ScriptError Value) :
    Value → Value → Except ScriptError Value
  | .int a, .int b => onInts a.toInt b.toInt
  | .float a, .float b => onFloats a b
  | .float a, .int b => onFloats a (floatOf b)
  | .int a, .float b => onFloats (floatOf a) b
  | _, _ => .error ErrorCode.typeMismatch

def add : Value → Value → Except ScriptError Value
  | .str a, .str b => .ok (.str (a ++ b))
  | .list a, .list b => .ok (.list (a ++ b))
  | a, b => numeric (fun m n => checkedInt (m + n)) (fun x y => checkedFloat (x.add y)) a b

def sub : Value → Value → Except ScriptError Value :=
  numeric (fun m n => checkedInt (m - n)) (fun x y => checkedFloat (x.sub y))

def mul : Value → Value → Except ScriptError Value :=
  numeric (fun m n => checkedInt (m * n)) (fun x y => checkedFloat (x.mul y))

/-- Whether a divisor is zero. -/
def isZero : Value → Bool
  | .int n => n == 0
  | .float x => x.isZero
  | _ => false

/-- The quotient; of integers, rounded toward zero. -/
def div (a b : Value) : Except ScriptError Value :=
  if b.isZero then .error ErrorCode.division
  else numeric (fun m n => checkedInt (m.tdiv n)) (fun x y => checkedFloat (x.div y)) a b

/-- The remainder, with the sign of the dividend; as impossible as the quotient where that
leaves 64 bits. -/
def mod (a b : Value) : Except ScriptError Value :=
  if b.isZero then .error ErrorCode.division
  else
    numeric (fun m n => (checkedInt (m.tdiv n)).bind fun _ => checkedInt (m.tmod n))
      (fun x y => checkedFloat (x.remainder y)) a b

/-- A power of integers.  The exponent has to be a 32-bit natural number. -/
def intPower (base exponent : Int) : Except ScriptError Value :=
  if exponent < 0 ∨ 0x100000000 ≤ exponent then .error ErrorCode.badArgument
  -- Of the bases below, every power is ± the base or its square.
  else if base.natAbs ≤ 1 then
    checkedInt (base.pow (if exponent = 0 then 0 else 2 - exponent.toNat % 2))
  else if 64 ≤ exponent then .error ErrorCode.badArgument
  else checkedInt (base.pow exponent.toNat)

/-- The power.  An integer exponent of a float is cut to 32 bits. -/
def pow : Value → Value → Except ScriptError Value
  | .int a, .int b => intPower a.toInt b.toInt
  | .float a, .int b => checkedFloat (a.integerPower (b.toInt.bmod 0x100000000))
  | .float a, .float b => checkedFloat (a.power b)
  | .int a, .float b => checkedFloat ((floatOf a).power b)
  | _, _ => .error ErrorCode.typeMismatch

def neg : Value → Except ScriptError Value
  | .int n => checkedInt (-n.toInt)
  | .float x => .ok (.float x.negate)
  | _ => .error ErrorCode.typeMismatch

/-- The absolute value; `none` for what is no number. -/
def abs? : Value → Option (Except ScriptError Value)
  | .int n => some (checkedInt n.toInt.natAbs)
  | .float x => some (.ok (.float x.abs))
  | _ => none

/-- A checked integer is the integer itself. -/
theorem checkedInt_eq_ok {n : Int} {v : Value} (h : checkedInt n = .ok v) :
    ∃ m : Int64, v = .int m ∧ m.toInt = n := by
  simp only [checkedInt] at h
  split at h
  · rename_i hn
    cases h
    exact ⟨_, rfl, Int64.toInt_ofInt_of_le (by omega) (by omega)⟩
  · cases h

/-- A checked float is finite. -/
theorem checkedFloat_eq_ok {x : Binary64} {v : Value} (h : checkedFloat x = .ok v) :
    v = .float x ∧ x.isFinite = true := by
  simp only [checkedFloat] at h
  split at h
  · rename_i hx; cases h; exact ⟨rfl, hx⟩
  · cases h

end Lineage.Value
