/-
  Lineage.Yaml.Reader

  Reading a YAML document as a JSON value.

  Keys are texts as written, and of entries with the same key the last one counts.
  Aliases are followed when a value is made of them.  That goes on until collections
  nest 128 deep, or until there were a hundred times more aliases than the document is
  large; so also a document whose nodes contain themselves is read to an end.
-/
import Lineage.Yaml.Node

namespace Lineage.Yaml

/-- Put an entry in place of the one with the same name, or after all others. -/
def putField (fields : List (String × Json)) (name : String) (value : Json) :
    List (String × Json) :=
  match fields with
  | [] => [(name, value)]
  | (n, v) :: rest => if n = name then (name, value) :: rest else (n, v) :: putField rest name value

/-! ## Values of nodes -/

/-- The value of a scalar with a tag.  Only without a tag it matters how the text is written. -/
def scalarValue? (tag : Option Tag) (plain : Bool) (text : String) : Option Json :=
  let chars := text.toList
  match tag with
  | some .boolean => (boolean? chars).map .bool
  | some .integer => (integer? chars).map integerValue
  | some .float => (float? chars).map .float
  | some .null => if isNull chars then some .null else none
  | some (.variant name) => some (.obj [(name, untagged chars)])
  | some .other => some (.str text)
  | none => some (untagged chars)
where
  /-- The value that the text has by itself. -/
  untagged (chars : List Char) : Json := if plain then plainValue chars else .str text

/-- The value of a collection with a tag, which counts if it is of its own kind. -/
def tagCollection (tag : Option Tag) (value : Json) : Json :=
  match tag with
  | some (.variant name) => .obj [(name, value)]
  | _ => value

/-- What a tag says, if there is one. -/
def Properties.meaning? (p : Properties) : Option Tag :=
  p.tag.bind Tag.ofOctets?

/-- Reading values, with a number of aliases that may yet be followed. -/
abbrev Following (α : Type) := StateT Nat Option α

/-- The node that is meant: itself, or where an alias leads. -/
def Node.target (anchored : List (Nat × Node)) (node : Node) : Following Node := do
  match node with
  | .alias number =>
    match ← get with
    | 0 => failure
    | left + 1 =>
      set left
      (anchored.lookup number).elim failure pure
  | node => return node

/-- The text of a key.  Collections are no keys. -/
def Node.key (anchored : List (Nat × Node)) (node : Node) : Following String := do
  match ← node.target anchored with
  | .scalar _ _ text => return text
  | _ => failure

/-- The value of a node in which collections nest `room` deep at most. -/
def Node.value (anchored : List (Nat × Node)) : Nat → Node → Following Json
  | 0, node => do
    match ← node.target anchored with
    | .scalar properties plain text => (scalarValue? properties.meaning? plain text).elim failure pure
    | _ => failure
  | room + 1, node => do
    match ← node.target anchored with
    | .alias _ => failure
    | .scalar properties plain text => (scalarValue? properties.meaning? plain text).elim failure pure
    | .sequence properties items =>
      let values ← items.mapM (Node.value anchored room)
      return tagCollection properties.meaning? (.arr values)
    | .mapping properties entries =>
      let fields ← entries.mapM fun (key, value) => do
        return (← key.key anchored, ← Node.value anchored room value)
      let fields := fields.foldl (fun fields (name, value) => putField fields name value) []
      return tagCollection properties.meaning? (.obj fields)

/-! ## Documents -/

/-- The value of a document, which has to be a mapping.  Its tag does not count. -/
def Node.document? (node : Node) : Option Json :=
  match node with
  | .mapping _ entries =>
    ((Node.mapping {} entries).value node.anchored.reverse 128 |>.run (100 * node.size)).map (·.1)
  | .scalar _ true "" => some (.obj [])
  | _ => none

/-- Read a text that holds one document at most.  Without content it is a mapping without
entries. -/
def read (text : String) : Option Json := do
  let chars := text.toList
  if !chars.all isAllowed then none
  match ← root? (← tokens? chars) with
  | none => return .obj []
  | some node => node.document?

end Lineage.Yaml
