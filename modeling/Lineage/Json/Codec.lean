/-
  Lineage.Json.Codec

  The JSON forms of values, methods and records.

  A value is written with its type tag, `"type"`, and its content, `"value"`; `null`
  has no content.  Fields that hold their defaults are left out of methods and
  records.  Reading takes the fields in any order, ignores unknown ones and refuses a
  known one that is repeated; tagged values and records may also be arrays in field
  order.  Arrays and objects may nest `maxDepth` deep at most.
-/
import Lineage.Json.Basic
import Lineage.Record.Basic

namespace Lineage.Json

/-! ## Writing -/

/-- The content of an error: its code and, if it has one, its message. -/
def ofError (e : ScriptError) : Json :=
  .obj (("code", .str e.code.name) ::
    match e.message? with
    | some m => [("msg", .str m)]
    | none => [])

/-- A tagged value with content. -/
def tagged (tag : TypeTag) (content : Json) : Json :=
  .obj [("type", .str tag.name), ("value", content)]

mutual

/-- The tagged form of a value. -/
def ofValue : Value → Json
  | .null => .obj [("type", .str "null")]
  | .bool b => tagged .boolean (.bool b)
  | .int n => tagged .number (.int n.toInt)
  | .float x => tagged .number (.float x)
  | .str s => tagged .string (.str s)
  | .obj id => tagged .objref (.int id.number.toInt)
  | .list items => tagged .array (.arr (ofItems items))
  | .map entries => tagged .object (.obj (ofEntries entries))
  | .err e => tagged .error (ofError e)

def ofItems : List Value → List Json
  | [] => []
  | v :: rest => ofValue v :: ofItems rest

def ofEntries : List (String × Value) → List (String × Json)
  | [] => []
  | (k, v) :: rest => (k, ofValue v) :: ofEntries rest

end

/-- The form of a method. -/
def ofMethod (m : MethodDef) : Json :=
  .obj <| [("source", .str m.source)]
    ++ (if m.callable then [("callable", .bool true)] else [])
    ++ (if m.aliases.isEmpty then [] else [("aliases", .arr (m.aliases.map .str))])
    ++ (match m.help with
        | some h => [("help", .str h)]
        | none => [])

def ofTimestamp (t : Timestamp) : Json :=
  .str t.write

/-- The flag that marks a recycled object. -/
def recycledField (recycled : Bool) : List (String × Json) :=
  if recycled then [("recycled", .bool true)] else []

/-- The form of a record. -/
def ofRecord (r : Record) : Json :=
  .obj <| [("id", .int r.id.number.toInt), ("parent", .int r.parent.number.toInt),
      ("properties", .obj (r.properties.entries.map fun p => (p.1, ofValue p.2))),
      ("methods", .obj (r.methods.entries.map fun m => (m.1, ofMethod m.2))),
      ("created", ofTimestamp r.created), ("modified", ofTimestamp r.modified)]
    ++ recycledField r.recycled

/-! ## Reading -/

/-- How deep arrays and objects may nest, counted from the outermost one. -/
def maxDepth : Nat := 127

/-- One entry of a tagged form or a struct: absent, or present once. -/
def once? (fields : List (String × Json)) (name : String) : Option (Option Json) :=
  if countField fields name ≤ 1 then some (field? fields name) else none

/-- A field that has to be there. -/
def required? (fields : List (String × Json)) (name : String) : Option Json :=
  (once? fields name).bind id

/-- A field that may be missing. -/
def optional? {α : Type} (fields : List (String × Json)) (name : String) (default : α)
    (decode : Json → Option α) : Option α :=
  match once? fields name with
  | some (some j) => decode j
  | some none => some default
  | none => none

/-- The fields of a struct, given by name or, as an array, in order. -/
def structFields? (names : List String) : Json → Option (List (String × Json))
  | .obj fields => some fields
  | .arr items => if items.length ≤ names.length then some (names.zip items) else none
  | _ => none

/-- Read a type tag. -/
def tag? (j : Json) : Option TypeTag :=
  j.str?.bind TypeTag.read

/-- Read a code; an unknown one is kept as a custom code. -/
def errorCode (text : String) : ErrorCode :=
  (ErrorCode.read text).getD (.custom text)

/-- Read the content of an error. -/
def error? (j : Json) : Option ScriptError := do
  let fields ← structFields? ["code", "msg"] j
  let code ← (← required? fields "code").str?
  let message ← optional? fields "msg" none optionalStr?
  return ⟨errorCode code, message⟩

/-- Read content that nests no further. -/
def scalar? : TypeTag → Json → Option Value
  | .null, .null => some .null
  | .boolean, .bool b => some (.bool b)
  | .number, .float x => some (.float x)
  | .number, .int n =>
    match int64? (.int n) with
    | some n => some (.int n)
    | none => some (.float (Binary64.ofInt n))
  | .string, .str s => some (.str s)
  | .objref, j => (int64? j).map fun n => .obj ⟨n⟩
  | _, _ => none

/-- Whether the content of a tagged form can be read with `room` levels of nesting.  Content that
comes before the tag has to be usable as a whole, whatever is read of it. -/
def hasContent (room : Nat) (fields : List (String × Json)) : Bool :=
  countField fields "value" ≤ 1 &&
    match fields.find? fun f => f.1 == "type" || f.1 == "value" with
    | some ("value", j) => j.isUsable room
    | _ => true

mutual

/-- Read a tagged value with `room` levels of nesting left. -/
def value? (room : Nat) (j : Json) : Option Value :=
  match j, room with
  | .obj fields, room + 1 =>
    match required? fields "type" with
    | none => none
    | some tag =>
      match tag? tag with
      | none => none
      | some tag =>
        if hasContent room fields then
          match contentField? room tag fields with
          | some found => found
          | none => if tag = .null then some .null else none
        else none
  | .arr [tag, content], room + 1 =>
    match tag? tag with
    | some tag => content? room tag content
    | none => none
  | _, _ => none

/-- Read the content of a value with the given tag. -/
def content? (room : Nat) (tag : TypeTag) (j : Json) : Option Value :=
  match tag, j, room with
  | .array, .arr items, room + 1 => (items? room items).map .list
  | .object, .obj fields, room + 1 => (entries? room fields).map fun es => .map (Dict.ofList es)
  | .error, j, _ + 1 => (error? j).map .err
  | tag, j, _ => scalar? tag j

/-- Read the content among the fields of a value; `none` when there is no such field. -/
def contentField? (room : Nat) (tag : TypeTag) (fields : List (String × Json)) :
    Option (Option Value) :=
  match fields with
  | [] => none
  | (name, j) :: rest =>
    if name == "value" then some (content? room tag j) else contentField? room tag rest

def items? (room : Nat) (items : List Json) : Option (List Value) :=
  match items with
  | [] => some []
  | j :: rest =>
    match value? room j, items? room rest with
    | some v, some vs => some (v :: vs)
    | _, _ => none

def entries? (room : Nat) (fields : List (String × Json)) : Option (List (String × Value)) :=
  match fields with
  | [] => some []
  | (k, j) :: rest =>
    match value? room j, entries? room rest with
    | some v, some es => some ((k, v) :: es)
    | _, _ => none

end

/-- Read a list of texts. -/
def strings? : Json → Option (List String)
  | .arr items => items.mapM str?
  | _ => none

/-- Read a method: its fields, or its bare source.  Fields that are not read have to be usable
too. -/
def method? (room : Nat) : Json → Option MethodDef
  | .str source => some { source }
  | .obj fields => do
    if !isUsable room (.obj fields) then none
    let source ← (← required? fields "source").str?
    let callable ← optional? fields "callable" false bool?
    let aliases ← optional? fields "aliases" [] strings?
    let help ← optional? fields "help" none optionalStr?
    return { source, callable, aliases, help }
  | _ => none

def objectId? (j : Json) : Option ObjectId :=
  (int64? j).map ObjectId.mk

def timestamp? (j : Json) : Option Timestamp :=
  j.str?.bind Timestamp.read

/-- Read a dictionary; of a repeated key the last value is kept. -/
def dict? {α : Type} (decode : Json → Option α) : Json → Option (OrderedDict String α)
  | .obj fields => (fields.mapM fun (f : String × Json) => (decode f.2).map (f.1, ·)).map .ofList
  | _ => none

/-- Read a record with `room` levels of nesting. -/
def record? (room : Nat) (j : Json) : Option Record := do
  let fields ← structFields?
    ["id", "parent", "properties", "methods", "created", "modified", "recycled"] j
  return {
    id := ← objectId? (← required? fields "id")
    parent := ← objectId? (← required? fields "parent")
    properties := ← optional? fields "properties" {} (dict? (value? (room - 2)))
    methods := ← optional? fields "methods" {} (dict? (method? (room - 2)))
    created := ← timestamp? (← required? fields "created")
    modified := ← timestamp? (← required? fields "modified")
    recycled := ← optional? fields "recycled" false bool? }

end Lineage.Json
