/-
  Lineage.Decimal.Shortest

  The shortest decimal that reads back as a given binary64 number, and how its digits are
  laid out as text.

  The decimals that read back lie in the interval halfway to the two neighbours of
  the number, ends included when its significand is even.  On the grids of 1, 2, …
  digits the two grid points around the number are tried; the first grid with a
  point in the interval wins, of two such points the nearer, and a `Tie` decides
  when both are equally near.  All comparisons are exact, over naturals.

  A `Layout` says between which exponents the number is written positionally and
  how the exponent is written otherwise.  There are two: the literal form of
  scripts, and the number form of JSON text.
-/
import Lineage.Binary64.Basic

namespace Lineage

/-- The decimal `digits · 10 ^ exponent`. -/
structure Decimal where
  digits : Nat
  exponent : Int
  deriving DecidableEq

namespace Decimal

/-- Which of two equally near decimals is written. -/
inductive Tie where
  /-- The one with an even last digit. -/
  | toEven
  /-- The greater one. -/
  | upward
  deriving DecidableEq

/-- Compare `a · 10 ^ i` with `n · 2 ^ j`. -/
def compareScaled (a : Nat) (i : Int) (n : Nat) (j : Int) : Ordering :=
  compare ((a * Nat.pow 10 i.toNat) <<< (-j).toNat) ((n * Nat.pow 10 (-i).toNat) <<< j.toNat)

/-- Whether a decimal lies among the reals that round to the finite number `x`, sign aside. -/
def readsBack (x : Binary64) (d : Decimal) : Bool :=
  let m := x.significand
  -- The neighbour below a power of two is half as far away as the one above.
  let narrow := m = Binary64.leastNormal ∧ -1074 < x.exponent
  let low := compareScaled d.digits d.exponent (if narrow then 4 * m - 1 else 4 * m - 2) (x.exponent - 2)
  let high := compareScaled d.digits d.exponent (4 * m + 2) (x.exponent - 2)
  if m % 2 = 0 then low.isGE && high.isLE else low.isGT && high.isLT

/-- The exponent of the leading decimal digit of `m · 2 ^ e`, for `m` not zero. -/
def leadingExponent (m : Nat) (e : Int) : Int :=
  let guess := ((Nat.log2 m : Int) + e) * 30103 / 100000
  if compareScaled 1 guess m e = .gt then guess - 1
  else if compareScaled 1 (guess + 1) m e = .gt then guess
  else guess + 1

/-- Drop the zeros at the end of the digits, at most `rounds` of them. -/
def strip (rounds : Nat) (d : Decimal) : Decimal :=
  match rounds with
  | 0 => d
  | rounds + 1 =>
    if d.digits % 10 = 0 ∧ d.digits ≠ 0 then strip rounds ⟨d.digits / 10, d.exponent + 1⟩ else d

/-- Of the grid points `below` and `below + 1` around `x`, the one to write on that grid. -/
def choose (tie : Tie) (x : Binary64) (below : Nat) (grid : Int) : Option Decimal :=
  let lower : Decimal := ⟨below, grid⟩
  let upper : Decimal := ⟨below + 1, grid⟩
  match readsBack x lower, readsBack x upper with
  | false, false => none
  | true, false => some lower
  | false, true => some upper
  | true, true =>
    match compareScaled (2 * below + 1) grid (2 * x.significand) x.exponent with
    | .gt => some lower
    | .lt => some upper
    | .eq =>
      match tie with
      | .upward => some upper
      | .toEven => some (if below % 2 = 0 then lower else upper)

/-- Search grids of growing precision, the next one having its unit at `10 ^ grid`. -/
def search (tie : Tie) (x : Binary64) (rounds : Nat) (grid : Int) : Option Decimal :=
  match rounds with
  | 0 => none
  | rounds + 1 =>
    let below := (x.significand * Nat.pow 10 (-grid).toNat) <<< x.exponent.toNat
      / Nat.pow 10 grid.toNat <<< (-x.exponent).toNat
    match choose tie x below grid with
    | some d => some d
    | none => search tie x rounds (grid - 1)

/-- The exact decimal value of `x`, sign aside. -/
def exact (x : Binary64) : Decimal :=
  ⟨(x.significand * Nat.pow 5 (-x.exponent).toNat) <<< x.exponent.toNat, -(-x.exponent).toNat⟩

/-- The shortest decimal that reads back as the finite number `x`, sign aside. -/
def shortest (tie : Tie) (x : Binary64) : Decimal :=
  if x.isZero then ⟨0, 0⟩
  else
    let first := leadingExponent x.significand x.exponent
    strip 20 ((search tie x 17 first).getD (exact x))

/-- Every decimal that the search finds reads back. -/
theorem readsBack_of_search {tie : Tie} {x : Binary64} {rounds : Nat} :
    ∀ {grid : Int} {d : Decimal}, search tie x rounds grid = some d → readsBack x d = true := by
  induction rounds with
  | zero => intro grid d h; cases h
  | succ rounds ih =>
    intro grid d h
    simp only [search] at h
    split at h
    · rename_i found hfound
      cases h
      simp only [choose] at hfound
      split at hfound
      · cases hfound
      · rename_i hl _; cases hfound; exact hl
      · rename_i _ hu; cases hfound; exact hu
      · rename_i hl hu
        split at hfound
        · cases hfound; exact hl
        · cases hfound; exact hu
        · split at hfound
          · cases hfound; exact hu
          · cases hfound; split <;> assumption
    · exact ih h

end Decimal

/-- The choices in writing a finite number. -/
structure Layout where
  /-- The least exponent of the leading digit that is written positionally. -/
  leastPositional : Int
  /-- The greatest such exponent. -/
  greatestPositional : Int
  /-- Whether an exponent that is not negative carries a plus sign. -/
  plusSign : Bool
  tie : Decimal.Tie

namespace Layout

/-- Literals are positional from 0.0001 up to, but not including, 10 ^ 16. -/
def literal : Layout := ⟨-4, 15, false, .upward⟩

/-- JSON numbers are positional from 0.00001 up to, but not including, 10 ^ 16. -/
def json : Layout := ⟨-5, 15, true, .toEven⟩

/-- Lay out a decimal that is not negative: always with a point or an exponent. -/
def unsigned (layout : Layout) (d : Decimal) : String :=
  let digits := Nat.toDigits 10 d.digits
  let leading : Int := if d.digits = 0 then 0 else d.exponent + (digits.length - 1 : Nat)
  let chars :=
    if layout.leastPositional ≤ leading ∧ leading ≤ layout.greatestPositional then
      if 0 ≤ d.exponent then digits ++ List.replicate d.exponent.toNat '0' ++ ['.', '0']
      else if 0 ≤ leading then
        digits.take (leading.toNat + 1) ++ '.' :: digits.drop (leading.toNat + 1)
      else ['0', '.'] ++ List.replicate (-leading - 1).toNat '0' ++ digits
    else
      let fraction := if digits.length = 1 then [] else '.' :: digits.drop 1
      let sign := if leading < 0 then ['-'] else if layout.plusSign then ['+'] else []
      digits.take 1 ++ fraction ++ 'e' :: sign ++ Nat.toDigits 10 leading.natAbs
  String.ofList chars

/-- Lay out a finite number, with a minus sign for every negative one, -0 included. -/
def write (layout : Layout) (x : Binary64) : String :=
  (if x.isNegative then "-" else "") ++ layout.unsigned (Decimal.shortest layout.tie x)

end Layout

/-- The literal form of any number; NaN shows no sign. -/
def Binary64.literal (x : Binary64) : String :=
  if x.isNaN then "NaN"
  else if x.isFinite then Layout.literal.write x
  else if x.isNegative then "-inf" else "inf"

end Lineage
