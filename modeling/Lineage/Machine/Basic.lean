/-
  Lineage.Machine.Basic

  The machine: an activation that runs, above the activations that wait for it.

  A step carries out one instruction and what it asks of the world.  An error goes to
  the innermost handler that takes it, through as many activations as need be; each
  one that it leaves adds a line to its trace.

  `Machine.run` makes as many steps as it is given fuel; nothing is said of a run that
  needs more.
-/
import Lineage.Builtin.Call
import Lineage.Machine.Frame

namespace Lineage

open World

/-- One call of a method. -/
structure Activation where
  frame : Frame
  /-- The object that the method was called on. -/
  this : ObjectId
  /-- The object that owns the method. -/
  definer : ObjectId
  method : String
  /-- The player on whose behalf it runs. -/
  player : ObjectId

/-- Who calls, and how. -/
structure CallContext where
  player : ObjectId
  caller : ObjectId
  /-- The argument text as a player typed it. -/
  argstr : String

namespace CallContext

/-- A call by the host on behalf of an object. -/
def direct (caller : ObjectId) : CallContext :=
  ⟨.nothing, caller, ""⟩

/-- A call by a method, which hands its player on. -/
def nested (a : Activation) : CallContext :=
  ⟨a.player, a.this, ""⟩

end CallContext

namespace Activation

/-- The variables at the start: the six that are bound from the start, and unset ones. -/
def initialEnv (width : Nat) (this : ObjectId) (method : String) (context : CallContext)
    (args : List Value) : Array (Option Value) :=
  let bound : List Value :=
    [.obj this, .obj context.player, .obj context.caller, .str method, .list args, .str context.argstr]
  (bound.map some ++ List.replicate (width - bound.length) none).toArray

/-- A call that is about to start. -/
def start (p : Program) (this definer : ObjectId) (method : String) (context : CallContext)
    (args : List Value) : Activation where
  frame :=
    { program := p
      env := initialEnv p.names.width this method context args }
  this := this
  definer := definer
  method := method
  player := context.player

/-- The line that an error adds to its trace when it leaves the call. -/
def traceFrame (a : Activation) : TraceFrame :=
  ⟨a.this, a.definer, a.method, a.frame.line⟩

end Activation

structure Machine where
  running : Activation
  /-- The calls that wait, innermost first. -/
  callers : List Activation

/-- How a run ends. -/
inductive Outcome where
  | returned (v : Value)
  | raised (e : Exception)
  /-- The code did what code must never do. -/
  | faulted

/-- The machine after a step. -/
inductive Progress where
  | running (m : Machine)
  | halted (o : Outcome)

namespace Machine

/-- Hand an error to a handler of one call, if one takes it. -/
def catchIn (e : ScriptError) (a : Activation) (callers : List Activation) : Option Progress :=
  match a.frame.handler? e.code a.frame.scopes with
  | none => none
  | some (l, f) =>
    match (f.push (.err e)).jump l with
    | .next f => some (.running ⟨{ a with frame := f }, callers⟩)
    | _ => some (.halted .faulted)

/-- Hand an error to the innermost handler that takes it; `trace` is what it has left so far. -/
def unwind (e : ScriptError) (trace : List TraceFrame) (a : Activation) :
    List Activation → Progress
  | [] =>
    match catchIn e a [] with
    | some p => p
    | none => .halted (.raised ⟨e, trace ++ [a.traceFrame]⟩)
  | caller :: callers =>
    match catchIn e a (caller :: callers) with
    | some p => p
    | none => unwind e (trace ++ [a.traceFrame]) caller callers

/-- Go on with a value on the stack of the running call. -/
def answer (m : Machine) (v : Value) : Progress :=
  .running { m with running := { m.running with frame := m.running.frame.push v } }

/-- Return from the running call. -/
def ret (m : Machine) (v : Value) : Progress :=
  match m.callers with
  | [] => .halted (.returned v)
  | caller :: callers => answer ⟨caller, callers⟩ v

/-! ## Requests -/

/-- The object that a value refers to. -/
def objectOperand : Value → ScriptAction ObjectId
  | .obj id => return id
  | v => throw (.withMessage .typeMismatch (v.literal ++ " is not an object"))

/-- The text that a value is. -/
def textOperand (what : String) : Value → ScriptAction String
  | .str s => return s
  | v => throw (.withMessage .typeMismatch (v.literal ++ " is not a " ++ what ++ " name"))

/-- The live object with this id. -/
def liveObject (id : ObjectId) : ScriptAction Handle := do
  match ← (load id).forScript with
  | some h => return h
  | none => throw (.withMessage .badReference (id.literal ++ " does not exist"))

def getProp (object property : Value) : ScriptAction Value := do
  let id ← objectOperand object
  let name ← textOperand "property" property
  let h ← liveObject id
  match ← (viewValue h name).forScript with
  | some v => return v
  | none => throw (.withMessage .noProperty (id.literal ++ "." ++ name ++ " not found"))

def putProp (object property v : Value) : ScriptAction Value := do
  let id ← objectOperand object
  let name ← textOperand "property" property
  let h ← liveObject id
  (viewSet h name v).forScript
  return v

/-- The program of a method that a script calls. -/
def programFor (definer : ObjectId) (name : String) : ScriptAction Program := do
  match ← (compiledMethod definer name).run with
  | .ok p => return p
  | .error (.methodFailed _ _ (.compile e)) =>
    throw (.withMessage .badArgument
      (definer.literal ++ ":" ++ name ++ " does not compile: " ++ e.message))
  | .error e => throw e.toScriptError

/-- The call of a method by the running one, with `depth` calls waiting. -/
def enterMethod (a : Activation) (depth : Nat) (object name args : Value) :
    ScriptAction Activation := do
  let id ← objectOperand object
  let name ← textOperand "method" name
  let .list args := args | throw ErrorCode.typeMismatch.error
  if (← get).session.runtime.maxStackDepth ≤ depth + 1 then
    throw (.withMessage .tooDeep "too many nested method calls")
  let h ← liveObject id
  let some (definer, _) ← (findMethod h name).forScript
    | throw (.withMessage .noMethod (id.literal ++ ":" ++ name ++ " not found"))
  let p ← programFor definer name
  return .start p id definer name (.nested a) args

/-- Carry out what the running call asks of the world. -/
def serve (m : Machine) : Request → StateM World Progress
  | .getProp object property => respond (getProp object property)
  | .putProp object property v => respond (putProp object property v)
  | .callBuiltin f args => respond (f.call args)
  | .callMethod object name args => do
    match ← (enterMethod m.running m.callers.length object name args).run with
    | .ok a => return .running ⟨a, m.running :: m.callers⟩
    | .error e => return unwind e [] m.running m.callers
where
  /-- Go on with an answer or an error. -/
  respond (action : ScriptAction Value) : StateM World Progress := do
    match ← action.run with
    | .ok v => return m.answer v
    | .error e => return unwind e [] m.running m.callers

/-- Carry out one instruction. -/
def step (m : Machine) : StateM World Progress :=
  match m.running.frame.step with
  | .next f => return .running { m with running := { m.running with frame := f } }
  | .raise e f => return unwind e [] { m.running with frame := f } m.callers
  | .return v => return m.ret v
  | .ask r f => serve { m with running := { m.running with frame := f } } r
  | .fault => return .halted .faulted

/-- Make steps until the run ends; nothing if the fuel does not last so long. -/
def run : Nat → Machine → StateM World (Option Outcome)
  | 0, _ => return none
  | fuel + 1, m => do
    match ← m.step with
    | .running m => run fuel m
    | .halted o => return some o

end Machine

end Lineage
