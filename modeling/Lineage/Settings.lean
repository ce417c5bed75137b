/-
  Lineage.Settings

  What can be configured, its JSON form, and settings files: YAML mappings laid over the
  default settings.
-/
import Lineage.Json.Codec
import Lineage.Yaml.Reader

namespace Lineage

/-- How scripts run. -/
structure RuntimeSettings where
  /-- How deep method calls may nest. -/
  maxStackDepth : Nat := 50
  /-- Whether scripts may write error codes that are not built in. -/
  customErrors : Bool := true
  deriving DecidableEq

/-- Tuning of one table of the database. -/
structure TableSettings where
  maxMemtableSize : Option Nat := none
  blockSize : Option Nat := none
  deriving DecidableEq

/-- Where objects are kept; without a path, in memory. -/
structure DatabaseSettings where
  path : Option String := none
  objects : Option TableSettings := none
  properties : Option TableSettings := none
  methods : Option TableSettings := none
  deriving DecidableEq

structure Settings where
  runtime : RuntimeSettings := {}
  database : DatabaseSettings := {}
  deriving DecidableEq

namespace Json

/-- A value that may be missing, as JSON. -/
def ofOption {α : Type} (write : α → Json) : Option α → Json
  | some a => write a
  | none => .null

/-- Read a value that may be `null`. -/
def option? {α : Type} (decode : Json → Option α) : Json → Option (Option α)
  | .null => some none
  | j => (decode j).map some

/-- An array for a structure of `size` fields: a `loose` one may go on after them. -/
def fitted (loose : Bool) (size : Nat) : Json → Json
  | .arr items => if loose then .arr (items.take size) else .arr items
  | j => j

/-- Fields by name, or all of them in order as an array. -/
def fullStructFields? (names : List String) : Json → Option (List (String × Json))
  | .arr items => if items.length = names.length then some (names.zip items) else none
  | j => structFields? names j

def ofNat (n : Nat) : Json := .int n

def ofRuntime (r : RuntimeSettings) : Json :=
  .obj [("max_stack_depth", ofNat r.maxStackDepth), ("custom_errors", .bool r.customErrors)]

def ofTable (t : TableSettings) : Json :=
  .obj [("max_memtable_size", ofOption ofNat t.maxMemtableSize),
    ("block_size", ofOption ofNat t.blockSize)]

def ofDatabase (d : DatabaseSettings) : Json :=
  .obj [("path", ofOption .str d.path), ("objects", ofOption ofTable d.objects),
    ("properties", ofOption ofTable d.properties), ("methods", ofOption ofTable d.methods)]

def ofSettings (s : Settings) : Json :=
  .obj [("runtime", ofRuntime s.runtime), ("database", ofDatabase s.database)]

def runtime? (loose : Bool) (j : Json) : Option RuntimeSettings := do
  let fields ← structFields? ["max_stack_depth", "custom_errors"] (j.fitted loose 2)
  return {
    maxStackDepth := ← optional? fields "max_stack_depth" 50 (natBelow? UInt64.size)
    customErrors := ← optional? fields "custom_errors" true bool? }

def table? (loose : Bool) (j : Json) : Option TableSettings := do
  let fields ← fullStructFields? ["max_memtable_size", "block_size"] (j.fitted loose 2)
  return {
    maxMemtableSize := ← optional? fields "max_memtable_size" none (option? (natBelow? UInt32.size))
    blockSize := ← optional? fields "block_size" none (option? (natBelow? UInt32.size)) }

def database? (loose : Bool) (j : Json) : Option DatabaseSettings := do
  let fields ← fullStructFields? ["path", "objects", "properties", "methods"] (j.fitted loose 4)
  return {
    path := ← optional? fields "path" none optionalStr?
    objects := ← optional? fields "objects" none (option? (table? loose))
    properties := ← optional? fields "properties" none (option? (table? loose))
    methods := ← optional? fields "methods" none (option? (table? loose)) }

/-- Read settings; whether arrays for structures in them are loose. -/
def settings? (loose : Bool) (j : Json) : Option Settings := do
  let fields ← structFields? ["runtime", "database"] (j.fitted loose 2)
  return {
    runtime := ← optional? fields "runtime" {} (runtime? loose)
    database := ← optional? fields "database" {} (database? loose) }

end Json

mutual

/-- One value over another.  Of two mappings the entries are combined; otherwise the upper value
counts. -/
def Json.over (base : Json) : Json → Json
  | .obj fields =>
    match base with
    | .obj below => .obj (Json.fieldsOver below fields)
    | _ => .obj fields
  | top => top

/-- Entries over others. -/
def Json.fieldsOver (below : List (String × Json)) : List (String × Json) → List (String × Json)
  | [] => below
  | (name, value) :: rest =>
    let value := match Json.field? below name with
      | some old => Json.over old value
      | none => value
    Json.fieldsOver (Yaml.putField below name value) rest

end

/-- The settings that a file gives.  What it leaves out is as by default, and what it has beyond
the settings is ignored, also in arrays. -/
def Settings.ofFile? (text : String) : Option Settings := do
  match ← Yaml.read text with
  | .obj fields => Json.settings? true ((Json.ofSettings {}).over (.obj fields))
  | _ => none

end Lineage
