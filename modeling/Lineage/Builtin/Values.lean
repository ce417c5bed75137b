/-
  Lineage.Builtin.Values

  The functions that compute on values alone.
-/
import Lineage.Builtin.Table
import Lineage.Decimal.Reading
import Lineage.Value.Arithmetic
import Lineage.Value.Literal
import Lineage.Value.Sequence

namespace Lineage.Builtin

/-- A text that had to be a number. -/
def notANumber (s : String) : ScriptError :=
  .withMessage .badArgument (Text.debug s ++ " is not a number")

/-- The integer that a value stands for; fractions are cut off. -/
def toInteger : Value → Except ScriptError Value
  | .int n => .ok (.int n)
  | .float x => .ok (.int x.truncate)
  | .bool b => .ok (.int (if b then 1 else 0))
  | .obj id => .ok (.int id.number)
  | .str s =>
    match Numeral.read (Text.trim s.toList) with
    | .ok n => .ok (.int n)
    | .error _ => .error (notANumber s)
  | _ => .error ErrorCode.typeMismatch

/-- The float that a value stands for. -/
def toFloat : Value → Except ScriptError Value
  | .int n => .ok (.float (Binary64.ofInt n.toInt))
  | .float x => .ok (.float x)
  | .str s =>
    match Decimal.read (Text.trim s.toList) with
    | some x => .ok (.float x)
    | none => .error (notANumber s)
  | _ => .error ErrorCode.typeMismatch

/-- The error that `raise` raises: an error value with another message if one is given, or the
text of any other value. -/
def raised (what : Value) (message : Option String) : ScriptError :=
  match what with
  | .err e => ⟨e.code, message <|> e.message?⟩
  | v => .withMessage .badArgument (message.getD v.plain)

/-- The number that lies furthest in the wanted direction, the first of equal ones. -/
def extreme (name : String) (wanted : Ordering) (best : Value) : List Value → Except ScriptError Value
  | [] => .ok best
  | v :: rest => do
    if v.tag ≠ .number then throw (.withMessage .typeMismatch (name ++ "() takes numbers"))
    extreme name wanted (if (← v.relate best) = wanted then v else best) rest

/-- Texts joined, and other values in literal form. -/
def joined (args : List Value) : Value :=
  .str ("".intercalate (args.map Value.plain))

def texts (names : List String) : Value :=
  .list (names.map .str)

/-- The result of a function that needs no world; nothing for the others. -/
def compute? (f : Builtin) (args : List Value) : Option (Except ScriptError Value) :=
  match f, args with
  | .raise, what :: rest => some (.error (raised what (rest.head?.bind Value.str?)))
  | .typeof, v :: _ => some (.ok (.str v.tag.name))
  | .tostr, args => some (.ok (joined args))
  | .toint, v :: _ => some (toInteger v)
  | .tofloat, v :: _ => some (toFloat v)
  | .length, v :: _ => some (v.length.map .ofNat)
  | .keys, .map entries :: _ => some (.ok (texts (Dict.keys entries)))
  | .isMember, v :: .list items :: _ =>
    some (.ok (Value.position (items.findIdx? fun item => item.equals v)))
  | .listAppend, list :: v :: _ => some (list.push v)
  | .listDelete, list :: index :: _ => some (list.removeAt index)
  | .min, first :: rest => some (extreme "min" .lt first (first :: rest))
  | .max, first :: rest => some (extreme "max" .gt first (first :: rest))
  | .abs, v :: _ => v.abs?
  | _, _ => none

end Lineage.Builtin
