/-
  Lineage.Value.Order

  The total order on values, and the equality that goes with it.

  Values of different kinds are ordered by kind.  Lists and maps are ordered
  lexicographically, maps entry by entry with the key first.  Floats are ordered by
  their bits (-0 before 0, NaN last), and errors by their codes alone, so that two
  errors with one code are equal whatever their messages.

  The relational operators use `relate`, which compares an integer with a float by
  value and refuses values of different kinds.
-/
import Lineage.Value.Basic

namespace Lineage.Value

/-- The place of a value's kind in the order. -/
def kind : Value → Nat
  | .null => 0
  | .bool _ => 1
  | .int _ => 2
  | .float _ => 3
  | .str _ => 4
  | .obj _ => 5
  | .list _ => 6
  | .map _ => 7
  | .err _ => 8

mutual

/-- The total order. -/
def order : Value → Value → Ordering
  | .null, .null => .eq
  | .bool a, .bool b => compare a b
  | .int a, .int b => compare a b
  | .float a, .float b => compare a b
  | .str a, .str b => compare a b
  | .obj a, .obj b => compare a b
  | .list a, .list b => orderLists a b
  | .map a, .map b => orderEntries a b
  | .err a, .err b => compare a.code b.code
  | a, b => compare a.kind b.kind

/-- The lexicographic order on lists. -/
def orderLists : List Value → List Value → Ordering
  | [], [] => .eq
  | [], _ :: _ => .lt
  | _ :: _, [] => .gt
  | a :: as, b :: bs => (order a b).then (orderLists as bs)

/-- The lexicographic order on entries, each ordered by key and then by value. -/
def orderEntries : List (String × Value) → List (String × Value) → Ordering
  | [], [] => .eq
  | [], _ :: _ => .lt
  | _ :: _, [] => .gt
  | (k, a) :: as, (l, b) :: bs => (compare k l).then ((order a b).then (orderEntries as bs))

end

/-- Equality as scripts see it. -/
def equals (a b : Value) : Bool :=
  order a b == .eq

/-- The order behind `<`, `<=`, `>` and `>=`. -/
def relate : Value → Value → Except ScriptError Ordering
  | .int a, .int b => .ok (compare a b)
  | .float a, .float b => .ok (compare a b)
  | .int a, .float b => .ok (compare (Binary64.ofInt a.toInt) b)
  | .float a, .int b => .ok (compare a (Binary64.ofInt b.toInt))
  | .str a, .str b => .ok (compare a b)
  | .obj a, .obj b => .ok (compare a b)
  | .err a, .err b => .ok (compare a.code b.code)
  | _, _ => .error ErrorCode.typeMismatch

mutual

/-- Every value equals itself. -/
theorem order_self : ∀ a : Value, order a a = .eq
  | .null => by simp [order]
  | .bool _ | .int _ | .float _ | .str _ | .obj _ | .err _ => by simp [order]
  | .list items => by simp [order, orderLists_self items]
  | .map entries => by simp [order, orderEntries_self entries]

theorem orderLists_self : ∀ as : List Value, orderLists as as = .eq
  | [] => by simp [orderLists]
  | a :: as => by simp [orderLists, order_self a, orderLists_self as]

theorem orderEntries_self : ∀ es : List (String × Value), orderEntries es es = .eq
  | [] => by simp [orderEntries]
  | (k, a) :: es => by simp [orderEntries, order_self a, orderEntries_self es]

end

end Lineage.Value
