/-
  Lineage.Value.Literal

  Values as text: the literal form that scripts read, the plain form in which a
  text stands without quotes, and the diagnostic form.
-/
import Lineage.Value.Basic
import Lineage.Decimal.Shortest
import Lineage.Text.Quoted

namespace Lineage.Value

/-- A text in quotes, as scripts write it. -/
def quoted (s : String) : String :=
  String.ofList (Text.literal s.toList)

mutual

/-- The literal form; an error shows its code alone. -/
def literal : Value → String
  | .null => "null"
  | .bool b => if b then "true" else "false"
  | .int n => Numeral.write n
  | .float x => x.literal
  | .str s => quoted s
  | .obj id => id.literal
  | .list items => "\x7b" ++ ", ".intercalate (literalItems items) ++ "\x7d"
  | .map entries => "[" ++ ", ".intercalate (literalEntries entries) ++ "]"
  | .err e => e.code.name

def literalItems : List Value → List String
  | [] => []
  | v :: rest => literal v :: literalItems rest

def literalEntries : List (String × Value) → List String
  | [] => []
  | (k, v) :: rest => (quoted k ++ " -> " ++ literal v) :: literalEntries rest

end

mutual

/-- The diagnostic form; an error shows its message too. -/
def debug : Value → String
  | .null => "None"
  | .bool b => if b then "true" else "false"
  | .int n => Numeral.write n
  | .float x => x.literal
  | .str s => Text.debug s
  | .obj id => id.literal
  | .list items => "[" ++ ", ".intercalate (debugItems items) ++ "]"
  | .map entries => "\x7b" ++ ", ".intercalate (debugEntries entries) ++ "\x7d"
  | .err e => e.describe

def debugItems : List Value → List String
  | [] => []
  | v :: rest => debug v :: debugItems rest

def debugEntries : List (String × Value) → List String
  | [] => []
  | (k, v) :: rest => (Text.debug k ++ ": " ++ debug v) :: debugEntries rest

end

/-- A text as it is, and any other value in literal form. -/
def plain : Value → String
  | .str s => s
  | v => v.literal

theorem literalItems_eq_map (items : List Value) : literalItems items = items.map literal := by
  induction items with
  | nil => simp [literalItems]
  | cons v rest ih => simp [literalItems, ih]

end Lineage.Value
