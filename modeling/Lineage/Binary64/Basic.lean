/-
  Lineage.Binary64.Basic

  IEEE 754 binary64 numbers as bit patterns.

  A finite number is `± significand · 2 ^ exponent`; `ofRatio` rounds an exact
  quotient to the nearest number, ties to the even significand.  The total order
  `rank` reads the bits as a signed magnitude: -NaN, -∞, the negative numbers,
  -0, +0, the positive numbers, +∞, NaN.  It tells every two patterns apart
  (`eq_of_rank_eq`).
-/
namespace Lineage

/-- A 64-bit floating-point number, by its bits. -/
structure Binary64 where
  bits : UInt64
  deriving DecidableEq

namespace Binary64

/-- The bits of +∞, which also bound the magnitudes of finite numbers. -/
def infiniteMagnitude : Nat := 0x7FF0000000000000

/-- The sign bit. -/
def isNegative (x : Binary64) : Bool :=
  0x8000000000000000 ≤ x.bits.toNat

/-- The bits without the sign. -/
def magnitude (x : Binary64) : Nat :=
  x.bits.toNat % 0x8000000000000000

def isFinite (x : Binary64) : Bool :=
  x.magnitude < infiniteMagnitude

def isNaN (x : Binary64) : Bool :=
  infiniteMagnitude < x.magnitude

/-- Either zero. -/
def isZero (x : Binary64) : Bool :=
  x.magnitude = 0

/-- The number with the given sign and magnitude bits. -/
def ofMagnitude (negative : Bool) (magnitude : Nat) : Binary64 :=
  ⟨UInt64.ofNat ((if negative then 0x8000000000000000 else 0) + magnitude)⟩

def zero : Binary64 := ofMagnitude false 0
def infinity : Binary64 := ofMagnitude false infiniteMagnitude
def nan : Binary64 := ofMagnitude false (infiniteMagnitude + 0x8000000000000)

/-- The first magnitude whose leading bit is implied. -/
def leastNormal : Nat := 0x10000000000000

/-- `m` of the value `m · 2 ^ e`. -/
def significand (x : Binary64) : Nat :=
  if x.magnitude < leastNormal then x.magnitude else leastNormal + x.magnitude % leastNormal

/-- `e` of the value `m · 2 ^ e`. -/
def exponent (x : Binary64) : Int :=
  if x.magnitude < leastNormal then -1074 else (x.magnitude / leastNormal : Nat) - 1075

/-- The place of the number in the total order. -/
def rank (x : Binary64) : Int :=
  if x.isNegative then -1 - (x.magnitude : Int) else x.magnitude

theorem isNegative_ofMagnitude (negative : Bool) {m : Nat} (h : m < 0x8000000000000000) :
    (ofMagnitude negative m).isNegative = negative := by
  cases negative <;> simp [ofMagnitude, isNegative] <;> omega

theorem magnitude_ofMagnitude (negative : Bool) {m : Nat} (h : m < 0x8000000000000000) :
    (ofMagnitude negative m).magnitude = m := by
  cases negative <;> simp [ofMagnitude, magnitude] <;> omega

theorem magnitude_lt (x : Binary64) : x.magnitude < 0x8000000000000000 :=
  Nat.mod_lt _ (by decide)

/-- A number is its sign and its magnitude. -/
theorem ofMagnitude_self (x : Binary64) : ofMagnitude x.isNegative x.magnitude = x := by
  obtain ⟨b⟩ := x
  have hb := b.toNat_lt
  have hsum : (if 0x8000000000000000 ≤ b.toNat then 0x8000000000000000 else 0) +
      b.toNat % 0x8000000000000000 = b.toNat := by
    split <;> omega
  simp only [ofMagnitude, isNegative, magnitude, decide_eq_true_eq]
  rw [hsum, UInt64.ofNat_toNat]

instance : Ord Binary64 := ⟨fun a b => compare a.rank b.rank⟩

theorem eq_of_rank_eq {a b : Binary64} (h : a.rank = b.rank) : a = b := by
  obtain ⟨a⟩ := a
  obtain ⟨b⟩ := b
  have ha := a.toNat_lt
  have hb := b.toNat_lt
  simp only [rank, isNegative, magnitude, decide_eq_true_eq] at h
  have hab : a.toNat = b.toNat := by
    split at h <;> split at h <;> omega
  have : a = b := UInt64.toNat_inj.mp hab
  rw [this]

instance : Std.TransOrd Binary64 where
  eq_swap {a b} := (Std.OrientedOrd.eq_swap : compare a.rank b.rank = _)
  isLE_trans {a b c} := (Std.TransOrd.isLE_trans : (compare a.rank b.rank).isLE → _ → (compare a.rank c.rank).isLE)

instance : Std.LawfulEqOrd Binary64 where
  eq_of_compare {a b} h := eq_of_rank_eq (Std.LawfulEqOrd.eq_of_compare h : a.rank = b.rank)

/-! ## Rounding exact quotients -/

/-- `num / den` rounded to the nearest integer, ties to even. -/
def roundHalfEven (num den : Nat) : Nat :=
  let quotient := num / den
  let twice := 2 * (num % den)
  if twice < den then quotient
  else if den < twice then quotient + 1
  else quotient + quotient % 2

/-- `num / (den · 2 ^ scale)` as a quotient of naturals. -/
def scaleDown (num den : Nat) (scale : Int) : Nat × Nat :=
  (num <<< (-scale).toNat, den <<< scale.toNat)

/-- The exponent at which `num / den` has a 53-bit integer part, or the least exponent there is. -/
def scaleOf (num den : Nat) : Int :=
  let guess : Int := (Nat.log2 num : Int) - Nat.log2 den - 52
  let (n, d) := scaleDown num den guess
  max (-1074) (if n < d <<< 52 then guess - 1 else guess)

/-- The number nearest to `num / den`, ties to the even significand, with the given sign. -/
def ofRatio (negative : Bool) (num den : Nat) : Binary64 :=
  if num = 0 then ofMagnitude negative 0
  else
    let scale := scaleOf num den
    let (n, d) := scaleDown num den scale
    let biased := (scale + 1074).toNat * leastNormal + roundHalfEven n d
    ofMagnitude negative (min biased infiniteMagnitude)

/-- The number nearest to an integer. -/
def ofInt (n : Int) : Binary64 :=
  ofRatio (n < 0) n.natAbs 1

/-- The integer part, clamped to 64 bits; zero for NaN. -/
def truncate (x : Binary64) : Int64 :=
  if x.isNaN then 0
  else
    let whole := x.significand <<< x.exponent.toNat >>> (-x.exponent).toNat
    let signed : Int := if x.isNegative then -whole else whole
    Int64.ofInt (max Int64.minValue.toInt (min Int64.maxValue.toInt signed))

/-- A rounded quotient is within half a unit of the exact one. -/
theorem roundHalfEven_near (num den : Nat) (h : 0 < den) :
    2 * num ≤ 2 * den * roundHalfEven num den + den ∧
      2 * den * roundHalfEven num den ≤ 2 * num + den := by
  have hdiv : den * (num / den) + num % den = num := Nat.div_add_mod num den
  have hmod : num % den < den := Nat.mod_lt _ h
  generalize hq : num / den = q at hdiv
  generalize hr : num % den = r at hdiv hmod
  have hround : roundHalfEven num den = q ∧ 2 * r ≤ den ∨ roundHalfEven num den = q + 1 ∧ den ≤ 2 * r := by
    simp only [roundHalfEven, hq, hr]
    split
    · exact Or.inl ⟨rfl, by omega⟩
    · split
      · exact Or.inr ⟨rfl, by omega⟩
      · rcases Nat.mod_two_eq_zero_or_one q with h2 | h2
        · exact Or.inl ⟨by omega, by omega⟩
        · exact Or.inr ⟨by omega, by omega⟩
  rcases hround with ⟨heq, hle⟩ | ⟨heq, hle⟩
  · rw [heq, Nat.mul_assoc]; omega
  · rw [heq, Nat.mul_assoc, Nat.mul_add]; omega

end Binary64

end Lineage
