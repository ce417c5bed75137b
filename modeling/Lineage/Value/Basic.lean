/-
  Lineage.Value.Basic

  The values of scripts and of object properties, their type tags and their truth.
-/
import Lineage.Dict
import Lineage.ObjectId
import Lineage.ErrorCode
import Lineage.Binary64.Arithmetic

namespace Lineage

/-- A value.  The entries of a map are in increasing order of their keys. -/
inductive Value where
  | null
  | bool (b : Bool)
  | int (n : Int64)
  | float (x : Binary64)
  | str (s : String)
  | obj (id : ObjectId)
  | list (items : List Value)
  | map (entries : List (String × Value))
  | err (e : ScriptError)

instance : Inhabited Value := ⟨.null⟩

/-- The tag that a value is stored with; integers and floats share one. -/
inductive TypeTag where
  | null
  | boolean
  | number
  | string
  | objref
  | array
  | object
  | error
  deriving DecidableEq

namespace TypeTag

def all : List TypeTag :=
  [.null, .boolean, .number, .string, .objref, .array, .object, .error]

/-- The tag as text. -/
def name : TypeTag → String
  | .null => "null"
  | .boolean => "boolean"
  | .number => "number"
  | .string => "string"
  | .objref => "objref"
  | .array => "array"
  | .object => "object"
  | .error => "error"

/-- The tag with exactly this name. -/
def read (text : String) : Option TypeTag :=
  all.find? fun t => t.name == text

theorem read_name (t : TypeTag) : read t.name = some t := by
  cases t <;> decide

end TypeTag

namespace Value

/-- The type tag of a value. -/
def tag : Value → TypeTag
  | .null => .null
  | .bool _ => .boolean
  | .int _ | .float _ => .number
  | .str _ => .string
  | .obj _ => .objref
  | .list _ => .array
  | .map _ => .object
  | .err _ => .error

/-- Whether a condition holds.  Empty things, zero, the missing object and errors do not;
NaN, which differs from zero, does. -/
def truth : Value → Bool
  | .null => false
  | .bool b => b
  | .int n => n != 0
  | .float x => !x.isZero
  | .str s => !s.isEmpty
  | .obj id => id != .nothing
  | .list items => !items.isEmpty
  | .map entries => !entries.isEmpty
  | .err _ => false

def str? : Value → Option String
  | .str s => some s
  | _ => none

def int? : Value → Option Int64
  | .int n => some n
  | _ => none

/-- An object reference, which may also be written as a bare integer. -/
def obj? : Value → Option ObjectId
  | .obj id => some id
  | .int n => some ⟨n⟩
  | _ => none

def list? : Value → Option (List Value)
  | .list items => some items
  | _ => none

def map? : Value → Option (Dict String Value)
  | .map entries => some entries
  | _ => none

def err? : Value → Option ScriptError
  | .err e => some e
  | _ => none

/-- The integer of a natural number. -/
def ofNat (n : Nat) : Value :=
  .int (Int64.ofNat n)

end Value

end Lineage
