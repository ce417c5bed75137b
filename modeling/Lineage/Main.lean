/-
  Lineage.Main

  The administration tool as a program: files, standard input and output, the clock.
-/
import Lineage.Admin.Run
import Lineage.Store.Durable
import Std.Time.DateTime.Timestamp

namespace Lineage.Admin

/-- What a file holds; nothing if it does not exist. -/
def readFile? (path : String) : IO (Option String) := do
  try return some (← IO.FS.readFile path)
  catch
    | .noFileOrDirectory .. | .inappropriateType .. => return none
    | e => throw e

/-- The file of a database directory that holds the store. -/
def imageFile (directory : String) : String :=
  directory ++ "/store.json"

/-- The store in a database directory, which is made if there is none. -/
def openStore (directory : String) : IO Store := do
  IO.FS.createDirAll directory
  match ← readFile? (imageFile directory) with
  | none => return .durable {}
  | some text =>
    let some store := DurableStore.ofImage? text
      | throw (IO.userError (imageFile directory ++ " is damaged"))
    return .durable store

def closeStore (directory : Option String) : Store → IO Unit
  | .memory _ => return
  | .durable store =>
    match directory with
    | some directory => IO.FS.writeFile (imageFile directory) store.image
    | none => return

def currentTime : IO Timestamp := do
  let t ← Std.Time.Timestamp.now
  let nanos := t.toNanosecondsSinceUnixEpoch.val
  return ⟨nanos / 1000000000, (nanos % 1000000000).toNat⟩

/-- The source that a command reads, if it reads one and the file can be read. -/
def readSource (c : Command) : IO (Option String) := do
  match c.sourceFile? with
  | none => return none
  | some "-" => return some (← (← IO.getStdin).readToEnd)
  | some file => try return some (← IO.FS.readFile file) catch _ => return none

/-- Run an invocation.  The exit code. -/
def Invocation.execute (i : Invocation) : IO UInt32 := do
  let file ← match i.settingsFile with
    | some path => readFile? path
    | none => pure none
  let some settings := i.settings? file
    | throw (IO.userError ("failed to read settings from " ++ i.settingsFile.getD ""))
  let directory := settings.database.path
  let store ← match directory with
    | some directory => openStore directory
    | none => pure (.memory {})
  let outcome := i.command.run
    { store, runtime := settings.runtime, source := ← readSource i.command
      clock := ← currentTime, seed := ← IO.rand 0 0x7FFFFFFF, fuel := 1 <<< 62 }
  closeStore directory outcome.store
  for text in outcome.printed do IO.println text
  match outcome.failure with
  | none => return 0
  | some failure =>
    IO.eprintln ("Error: " ++ failure.message)
    return 1

end Lineage.Admin

open Lineage Admin in
def main (words : List String) : IO UInt32 := do
  match Invocation.read words with
  | .error (.help text) =>
    IO.print text
    return 0
  | .error (.misuse why) =>
    IO.eprintln ("error: " ++ why.message)
    return 2
  | .ok invocation =>
    try invocation.execute
    catch e =>
      IO.eprintln ("Error: " ++ toString e)
      return 1
