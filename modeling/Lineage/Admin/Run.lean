/-
  Lineage.Admin.Run

  Carrying out commands of the administration tool.

  A command runs in a session of its own over the store, with the root object made if
  the store is empty.  What it has printed stays printed when it fails.
-/
import Lineage.Admin.Command
import Lineage.Machine.Call
import Lineage.Program.Listing
import Lineage.Settings

namespace Lineage.Admin

/-- Why a command did not succeed. -/
inductive Failure where
  | runtime (e : RuntimeError)
  | missingParent (id : ObjectId)
  | missingMethod (id : ObjectId) (method : String)
  | unreadable (file : String)
  /-- A script did not end within the steps it was given. -/
  | unfinished

/-- The text of the failure. -/
def Failure.message : Failure → String
  | .runtime e => e.message
  | .missingParent id => "parent " ++ id.literal ++ " does not exist"
  | .missingMethod id method => id.literal ++ " has no method " ++ method
  | .unreadable file => "reading " ++ Text.debug file
  | .unfinished => "the script did not end"

/-- Work on a world that prints. -/
abbrev Work (α : Type) := ExceptT Failure (StateT (List String) (StateM World)) α

/-- An operation on the world as part of the work. -/
def act {α : Type} (a : Action α) : Work α := fun printed w =>
  match a.run.run w with
  | (.ok v, w) => ((.ok v, printed), w)
  | (.error e, w) => ((.error (.runtime e), printed), w)

/-- Print a text on lines of its own. -/
def say (text : String) : Work Unit := fun printed w =>
  ((.ok (), printed ++ [text]), w)

/-- An operation that runs scripts. -/
def actToEnd {α : Type} (a : Action (Option α)) : Work α := do
  match ← act a with
  | some v => return v
  | none => throw .unfinished

/-! ## Commands -/

/-- The line of an object in a list. -/
def summary (r : Record) : String :=
  r.id.literal ++ "\tparent " ++ r.parent.literal ++ "\t" ++ toString r.properties.entries.length
    ++ " properties, " ++ toString r.methods.entries.length ++ " methods"
    ++ (if r.recycled then "\trecycled" else "")

/-- The values of expressions, each evaluated on the root object. -/
def arguments (fuel : Nat) (expressions : List String) : Work (List Value) := do
  if expressions.isEmpty then return []
  let v ← actToEnd <| World.eval fuel .root
    ("return \x7b" ++ ", ".intercalate expressions ++ "\x7d;")
  return v.list?.getD []

/-- Carry out a command.  `source` is what its source file holds, if it reads one. -/
def Command.perform (fuel : Nat) (source : Option String) : Command → Work Unit
  | .list recycled => do
    for h in ← act (World.list recycled) do
      say (summary (← act (World.recordOf h)))
  | .print id => do
    let h ← act (World.object id)
    say ((Json.ofRecord (← act (World.recordOf h))).pretty 0)
  | .create parent => do
    if (← act (World.load parent)).isNone then throw (.missingParent parent)
    let h ← act (World.create parent {} {})
    say (← act (World.recordOf h)).id.literal
  | .recycle id => act (World.recycle id)
  | .call id method expressions => do
    let args ← arguments fuel expressions
    let h ← act (World.object id)
    say (← actToEnd (World.call fuel h method args)).literal
  | .eval this source => do
    say (← actToEnd (World.eval fuel this source)).literal
  | .setMethod id name file callable aliases => do
    let h ← act (World.object id)
    let some source := source | throw (.unreadable file)
    act (World.setMethod h name { source, callable, aliases })
    let _ ← act (World.save h)
    let _ ← act (World.compiledMethod id name)
  | .disassemble id method => do
    let h ← act (World.object id)
    let some (definer, _) ← act (World.findMethod h method) | throw (.missingMethod id method)
    if definer ≠ id then say ("-- defined on " ++ definer.literal)
    for line in (← act (World.compiledMethod definer method)).listing do say line
  | .setAlias name id => act (World.setAlias name id)

/-! ## Runs -/

/-- The file that a command reads source from; `-` means the standard input. -/
def Command.sourceFile? : Command → Option String
  | .setMethod _ _ file _ _ => some file
  | _ => none

/-- The settings of an invocation, given what its settings file holds.  A file that does not
exist sets nothing. -/
def Invocation.settings? (i : Invocation) (file : Option String) : Option Settings := do
  let settings ← match file with
    | some text => Settings.ofFile? text
    | none => some {}
  let path := match i.database with
    | some path => some path
    | none => settings.database.path
  return { settings with database := { settings.database with path } }

/-- What a command finds when it runs. -/
structure Surroundings where
  store : Store
  runtime : RuntimeSettings
  source : Option String
  clock : Timestamp
  seed : Nat
  /-- How many steps scripts may take. -/
  fuel : Nat

structure Outcome where
  /-- The texts printed, each on lines of its own. -/
  printed : List String
  failure : Option Failure
  /-- The store afterwards. -/
  store : Store

/-- Run a command: in a new session, with the root object made, and leaving nothing unwritten. -/
def Command.run (c : Command) (s : Surroundings) : Outcome :=
  let work : Work Unit := do
    act (World.openSession s.runtime)
    let _ ← act World.ensureRoot
    c.perform s.fuel s.source
  let start := { World.initial s.store s.runtime with clock := s.clock, seed := s.seed }
  let ((result, printed), w) := work.run.run [] start
  let (_, w) := World.shutdown.run.run w
  let failure := match result with
    | .ok _ => none
    | .error e => some e
  ⟨printed, failure, w.store⟩

end Lineage.Admin
