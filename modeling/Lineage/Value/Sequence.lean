/-
  Lineage.Value.Sequence

  Lists, texts and maps as containers.

  Positions count from one; texts are counted in characters.  A position outside
  `1 .. length` is `E_RANGE`, and an operation on a value of the wrong kind is
  `E_TYPE`.
-/
import Lineage.Value.Order
import Lineage.Text.Quoted

namespace Lineage.Value

/-- The zero-based place of a position in a sequence of the given length. -/
def place (position : Int64) (length : Nat) : Except ScriptError Nat :=
  let i := position.toInt
  if 1 ≤ i ∧ i ≤ length then .ok (i.toNat - 1)
  else .error (.withMessage .range
    ("index " ++ toString i ++ " out of range 1.." ++ toString length))

/-- How many elements, characters or entries a value has. -/
def length : Value → Except ScriptError Nat
  | .str s => .ok s.toList.length
  | .list items => .ok items.length
  | .map entries => .ok entries.length
  | _ => .error ErrorCode.typeMismatch

/-- The element at a place that lies inside the list. -/
def itemAt {α : Type} (items : List α) (i : Nat) : Except ScriptError α :=
  match items[i]? with
  | some item => .ok item
  | none => .error ErrorCode.range

/-- The element at a position of a list or text, or under a key of a map. -/
def index : Value → Value → Except ScriptError Value
  | .list items, .int position => do
    itemAt items (← place position items.length)
  | .str s, .int position => do
    let c ← itemAt s.toList (← place position s.toList.length)
    return .str (String.ofList [c])
  | .map entries, .str key =>
    match Dict.get? entries key with
    | some v => .ok v
    | none => .error (.withMessage .range ("key " ++ Text.debug key ++ " not present"))
  | _, _ => .error ErrorCode.typeMismatch

/-- A copy with one element replaced or, in a map, stored under the key. -/
def indexSet : Value → Value → Value → Except ScriptError Value
  | .list items, .int position, value => do
    return .list (items.set (← place position items.length) value)
  | .str s, .int position, value => do
    let .str replacement := value | .error ErrorCode.typeMismatch
    let i ← place position s.toList.length
    let [c] := replacement.toList | .error ErrorCode.badArgument
    return .str (String.ofList (s.toList.set i c))
  | .map entries, .str key, value => .ok (.map (Dict.put entries key value))
  | _, _, _ => .error ErrorCode.typeMismatch

/-- The elements from one position to another, both included; none when the second is less
than the first. -/
def range (v first last : Value) : Except ScriptError Value := do
  let some first := first.int? | .error ErrorCode.typeMismatch
  let some last := last.int? | .error ErrorCode.typeMismatch
  let size ← v.length
  let (a, b) := (first.toInt, last.toInt)
  if b < a then
    match v with
    | .list _ => return .list []
    | .str _ => return .str ""
    | _ => .error ErrorCode.typeMismatch
  else if a < 1 ∨ size < b then .error ErrorCode.range
  else
    let slice {α : Type} (items : List α) : List α :=
      (items.drop (a.toNat - 1)).take (b - a + 1).toNat
    match v with
    | .list items => return .list (slice items)
    | .str s => return .str (String.ofList (slice s.toList))
    | _ => .error ErrorCode.typeMismatch

/-- The least place at which a list of characters occurs in another. -/
def occurrence (needle : List Char) : List Char → Option Nat
  | [] => if needle = [] then some 0 else none
  | c :: rest =>
    if needle.isPrefixOf (c :: rest) then some 0 else (occurrence needle rest).map (· + 1)

/-- A found place as a position; zero when there is none. -/
def position (place : Option Nat) : Value :=
  ofNat ((place.map (· + 1)).getD 0)

/-- Where a value is in a container: the position of an equal element of a list, or of a text
in a longer one, zero when absent; of a map, whether it has the key. -/
def indexIn : Value → Value → Except ScriptError Value
  | needle, .list items => .ok (position (items.findIdx? fun item => item.equals needle))
  | .str needle, .str haystack => .ok (position (occurrence needle.toList haystack.toList))
  | .str key, .map entries => .ok (.bool (Dict.has entries key))
  | _, _ => .error ErrorCode.typeMismatch

/-- A list with one more element at its end. -/
def push : Value → Value → Except ScriptError Value
  | .list items, value => .ok (.list (items ++ [value]))
  | _, _ => .error ErrorCode.typeMismatch

/-- A list without one element, or a map without one key. -/
def removeAt : Value → Value → Except ScriptError Value
  | .list items, .int position => do
    return .list (items.eraseIdx (← place position items.length))
  | .map entries, .str key => .ok (.map (Dict.remove entries key))
  | _, _ => .error ErrorCode.typeMismatch

/-- A position has a place exactly when it lies within the length. -/
theorem place_eq_ok_iff {position : Int64} {length i : Nat} :
    place position length = .ok i ↔ position.toInt = i + 1 ∧ i < length := by
  simp only [place]
  split
  · rename_i h
    simp only [Except.ok.injEq]
    omega
  · rename_i h
    simp only [reduceCtorEq, false_iff]
    omega

end Lineage.Value
