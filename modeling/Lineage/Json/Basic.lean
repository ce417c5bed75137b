/-
  Lineage.Json.Basic

  JSON values.

  An integer is a number written without point and exponent that fits 64 bits,
  signed or unsigned; every other number is a float.  `unusable` stands for a token
  that is well formed but denotes nothing: a text with half a surrogate pair, or a
  number too large for a float.  Such a token may stand where it is skipped.
-/
import Lineage.Binary64.Basic

namespace Lineage

inductive Json where
  | null
  | bool (b : Bool)
  | int (n : Int)
  | float (x : Binary64)
  | str (s : String)
  | arr (items : List Json)
  | obj (fields : List (String × Json))
  | unusable

instance : Inhabited Json := ⟨.null⟩

namespace Json

/-- The value of the first field with this name. -/
def field? (fields : List (String × Json)) (name : String) : Option Json :=
  fields.lookup name

/-- How many fields have this name. -/
def countField (fields : List (String × Json)) (name : String) : Nat :=
  fields.countP fun f => f.1 == name

/-- An integer that fits 64 signed bits. -/
def int64? : Json → Option Int64
  | .int n => if -0x8000000000000000 ≤ n ∧ n < 0x8000000000000000 then some (Int64.ofInt n) else none
  | _ => none

/-- A natural number below the bound. -/
def natBelow? (bound : Nat) : Json → Option Nat
  | .int n => if 0 ≤ n ∧ n < bound then some n.toNat else none
  | _ => none

def str? : Json → Option String
  | .str s => some s
  | _ => none

def bool? : Json → Option Bool
  | .bool b => some b
  | _ => none

mutual

/-- Whether all of a value denotes something and its arrays and objects nest `room` deep at most. -/
def isUsable (room : Nat) : Json → Bool
  | .unusable => false
  | .arr items =>
    match room with
    | 0 => false
    | room + 1 => itemsUsable room items
  | .obj fields =>
    match room with
    | 0 => false
    | room + 1 => fieldsUsable room fields
  | _ => true

def itemsUsable (room : Nat) : List Json → Bool
  | [] => true
  | j :: rest => isUsable room j && itemsUsable room rest

def fieldsUsable (room : Nat) : List (String × Json) → Bool
  | [] => true
  | (_, j) :: rest => isUsable room j && fieldsUsable room rest

end

/-- An optional text: `null` is none. -/
def optionalStr? : Json → Option (Option String)
  | .null => some none
  | .str s => some (some s)
  | _ => none

end Json

end Lineage
