/-
  Lineage.ObjectId

  References to objects.  An id is a 64-bit number and need not belong to any
  object; `nothing` (-1) stands for a missing object and for the parent of a
  parentless one, and `root` (0) holds the alias table.

  The key form of an id is its eight bytes, most significant first, so that
  byte order on keys is number order on ids that are not negative.
-/
import Lineage.Numeral
import Lineage.Text.Blank

namespace Lineage

/-- A reference to an object, by number. -/
structure ObjectId where
  number : Int64
  deriving DecidableEq

namespace ObjectId

/-- The id that no object has. -/
def nothing : ObjectId := ⟨-1⟩

/-- The id of the root object. -/
def root : ObjectId := ⟨0⟩

instance : Inhabited ObjectId := ⟨nothing⟩

instance : Ord ObjectId := ⟨fun a b => compare a.number b.number⟩

theorem compare_eq (a b : ObjectId) : compare a b = compare a.number b.number := rfl

instance : Std.TransOrd ObjectId where
  eq_swap {a b} := (Std.OrientedOrd.eq_swap : compare a.number b.number = _)
  isLE_trans {a b c} :=
    (Std.TransOrd.isLE_trans : (compare a.number b.number).isLE → _ → (compare a.number c.number).isLE)

instance : Std.LawfulEqOrd ObjectId where
  eq_of_compare {a b} h := by
    have hn : a.number = b.number := Std.LawfulEqOrd.eq_of_compare h
    cases a; cases b; simp_all

/-- Whether the number is zero or above. -/
def isNonNegative (id : ObjectId) : Bool := 0 ≤ id.number

/-- The literal form, `#5`. -/
def literal (id : ObjectId) : String :=
  "#" ++ Numeral.write id.number

/-- The eight bytes of the id, most significant first. -/
def bytes (id : ObjectId) : List UInt8 :=
  [56, 48, 40, 32, 24, 16, 8, 0].map fun shift => UInt8.ofNat (id.number.toUInt64.toNat >>> shift)

/-- The id with the given eight bytes. -/
def ofBytes? (bs : List UInt8) : Option ObjectId :=
  if bs.length = 8 then
    some ⟨UInt64.toInt64 (UInt64.ofNat (bs.foldl (fun acc b => acc * 256 + b.toNat) 0))⟩
  else none

/-- Read an id written as a number or as `#` and a number, with white space around it. -/
def read (text : List Char) : Except NumeralError ObjectId :=
  let body := Text.trim text
  let digits := match body with
    | '#' :: rest => rest
    | _ => body
  (Numeral.read digits).map ObjectId.mk

theorem length_bytes (id : ObjectId) : id.bytes.length = 8 := rfl

/-- An id is determined by its bytes. -/
theorem ofBytes?_bytes (id : ObjectId) : ofBytes? id.bytes = some id := by
  obtain ⟨n⟩ := id
  have h : UInt64.toInt64 (UInt64.ofNat n.toUInt64.toNat) = n := by simp
  have hw : n.toUInt64.toNat < 0x10000000000000000 := n.toUInt64.toNat_lt
  simp only [ofBytes?, length_bytes, if_true, Option.some.injEq, mk.injEq]
  rw [← h]
  generalize n.toUInt64.toNat = w at hw
  have hfold : (bytes ⟨UInt64.toInt64 (UInt64.ofNat w)⟩).foldl
      (fun acc b => acc * 256 + b.toNat) 0 = w := by
    simp [bytes, Nat.mod_eq_of_lt hw]
    omega
  rw [hfold]

end ObjectId

end Lineage
