/-
  Lineage.Machine.Call

  Calling methods and running scripts from outside.
-/
import Lineage.Machine.Basic

namespace Lineage

open World

/-- The value that a run returned; nothing if it did not end.  An uncaught error is a failure of
the method. -/
def Outcome.report (this : ObjectId) (method : String) : Option Outcome → Action (Option Value)
  | some (.returned v) => return some v
  | some (.raised e) => throw (.methodFailed this method (.exception e))
  | some .faulted | none => return none

/-- Run a call to its end. -/
def Activation.finish (a : Activation) (fuel : Nat) : Action (Option Value) := do
  Outcome.report a.this a.method (← Machine.run fuel ⟨a, []⟩)

namespace World

/-- A failure to compile a method, told of the object that the method was to run on. -/
def blame (id : ObjectId) (name : String) : RuntimeError → RuntimeError
  | .methodFailed _ _ cause => .methodFailed id name cause
  | e => e

/-- Run the method of an owner on an object. -/
def runMethod (fuel : Nat) (id definer : ObjectId) (name : String) (context : CallContext)
    (args : List Value) : Action (Option Value) := do
  let p ← tryCatch (compiledMethod definer name) fun e => throw (blame id name e)
  (Activation.start p id definer name context args).finish fuel

/-- Call a method of an object. -/
def call (fuel : Nat) (h : Handle) (name : String) (args : List Value) : Action (Option Value) := do
  let id := (← recordOf h).id
  match ← findMethod h name with
  | some (definer, _) => runMethod fuel id definer name (.direct id) args
  | none => throw (.methodNotFound id name)

/-- Invoke a method of an object as a command of a player. -/
def command (fuel : Nat) (h : Handle) (word : String) (args : List Value) (player : ObjectId)
    (argstr : String) : Action (Option Value) := do
  let id := (← recordOf h).id
  match ← findCommand h word with
  | some (definer, name) => runMethod fuel id definer name ⟨player, id, argstr⟩ args
  | none => throw (.methodNotFound id word)

/-- Run a script once on behalf of an object. -/
def eval (fuel : Nat) (this : ObjectId) (source : String) : Action (Option Value) := do
  match Program.compile source (← get).session.runtime.customErrors with
  | .error e => throw (.methodFailed this "eval" (.compile e))
  | .ok p => (Activation.start p this this "eval" (.direct this) []).finish fuel

/-- A session over a store, which it connects. -/
def openSession (runtime : RuntimeSettings) : Action Unit := do
  access Store.connect
  modify fun w => { w with session := { runtime } }

/-- A world over a store, before anything has been done in it. -/
def initial (store : Store) (runtime : RuntimeSettings) : World :=
  { store, session := { runtime } }

end World

end Lineage
