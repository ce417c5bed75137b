/-
  Lineage.Json.Printer

  JSON text: compact, and indented by two spaces a level.

  Control characters are escaped, with the short escapes where JSON has one; every
  other character stands for itself.  A float that is infinite or no number is
  written as `null`.
-/
import Lineage.Json.Basic
import Lineage.Decimal.Shortest

namespace Lineage.Json

/-- A hexadecimal digit in lower case. -/
def hexDigit (n : Nat) : Char :=
  (Nat.toDigits 16 (n % 16)).headD '0'

/-- One character between the quotes. -/
def escapeChar (c : Char) : List Char :=
  if c = '"' then ['\\', '"']
  else if c = '\\' then ['\\', '\\']
  else if c = '\n' then ['\\', 'n']
  else if c = '\r' then ['\\', 'r']
  else if c = '\t' then ['\\', 't']
  else if c = '\x08' then ['\\', 'b']
  else if c = '\x0c' then ['\\', 'f']
  else if c.toNat < 0x20 then
    ['\\', 'u', '0', '0', hexDigit (c.toNat / 16), hexDigit c.toNat]
  else [c]

/-- A text in quotes. -/
def quote (s : String) : String :=
  String.ofList ('"' :: (s.toList.flatMap escapeChar ++ ['"']))

/-- A number that is not an integer. -/
def writeFloat (x : Binary64) : String :=
  if x.isFinite then Layout.json.write x else "null"

mutual

/-- The compact text of a value. -/
def write : Json → String
  | .null | .unusable => "null"
  | .bool b => if b then "true" else "false"
  | .int n => toString n
  | .float x => writeFloat x
  | .str s => quote s
  | .arr items => "[" ++ ",".intercalate (writeItems items) ++ "]"
  | .obj fields => "\x7b" ++ ",".intercalate (writeFields fields) ++ "\x7d"

def writeItems : List Json → List String
  | [] => []
  | j :: rest => write j :: writeItems rest

def writeFields : List (String × Json) → List String
  | [] => []
  | (k, j) :: rest => (quote k ++ ":" ++ write j) :: writeFields rest

end

/-- A new line indented to a level. -/
def newLine (level : Nat) : String :=
  "\n" ++ String.ofList (List.replicate (2 * level) ' ')

/-- Parts on lines of their own between brackets, or the bare brackets when there are none. -/
def spread (level : Nat) (left right : String) (parts : List String) : String :=
  if parts.isEmpty then left ++ right
  else
    left ++ newLine (level + 1) ++ ("," ++ newLine (level + 1)).intercalate parts
      ++ newLine level ++ right

mutual

/-- The indented text of a value whose first line starts at the given level. -/
def pretty (level : Nat) : Json → String
  | .arr items => spread level "[" "]" (prettyItems (level + 1) items)
  | .obj fields => spread level "\x7b" "\x7d" (prettyFields (level + 1) fields)
  | j => write j

def prettyItems (level : Nat) : List Json → List String
  | [] => []
  | j :: rest => pretty level j :: prettyItems level rest

def prettyFields (level : Nat) : List (String × Json) → List String
  | [] => []
  | (k, j) :: rest => (quote k ++ ": " ++ pretty level j) :: prettyFields level rest

end

end Lineage.Json
