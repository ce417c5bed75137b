/-
  Lineage.Machine.Frame

  One program as it runs: where it is, its variables, its stack of values and the
  handlers around it.

  `Frame.step` carries out one instruction.  What only the world can answer it asks
  for; everything else it decides.  A fault is what code must never do, such as taking
  a value from an empty stack.
-/
import Lineage.Machine.Scatter
import Lineage.Program.Basic
import Lineage.Value.Arithmetic
import Lineage.Value.Sequence

namespace Lineage

open Script (Name BinaryOp)

/-- Which errors a handler takes. -/
inductive Catch where
  | any
  | listed (codes : List ErrorCode)

def Catch.accepts (c : Catch) (code : ErrorCode) : Bool :=
  match c with
  | .any => true
  | .listed codes => codes.contains code

/-- A `try` body that is being run. -/
structure Scope where
  handlers : List (Catch × Label)
  /-- The height of the stack when it was entered. -/
  height : Nat

structure Frame where
  program : Program
  /-- The place of the next instruction. -/
  pc : Nat := 0
  /-- The values of the variables; nothing until they are set. -/
  env : Array (Option Value)
  /-- The values being worked on, the last one first. -/
  stack : List Value := []
  /-- The `try` bodies around, innermost first. -/
  scopes : List Scope := []
  /-- The value that was kept aside. -/
  kept : Value := .null
  /-- Handlers for a `try` body to come, the last one first. -/
  catches : List (Catch × Label) := []

/-- What a program asks of the world. -/
inductive Request where
  | getProp (object property : Value)
  | putProp (object property value : Value)
  | callMethod (object name args : Value)
  | callBuiltin (f : Builtin) (args : List Value)

/-- The outcome of an instruction. -/
inductive Reply where
  | next (f : Frame)
  | raise (e : ScriptError) (f : Frame)
  | return (v : Value)
  /-- The answer to the request is to be pushed. -/
  | ask (r : Request) (f : Frame)
  | fault

namespace Frame

/-- The highest part of a stack removed, so that it is no higher than `height`. -/
def cut (height : Nat) (stack : List Value) : List Value :=
  stack.drop (stack.length - height)

def push (f : Frame) (v : Value) : Frame :=
  { f with stack := v :: f.stack }

/-- Go on at a label. -/
def jump (f : Frame) (l : Label) : Reply :=
  match f.program.labels[l.slot.toNat]? with
  | some target => .next { f with pc := target.position.toNat }
  | none => .fault

/-- Set a variable. -/
def bind (f : Frame) (name : Name) (v : Value) : Option Frame :=
  if name.slot.toNat < f.env.size then
    some { f with env := f.env.setIfInBounds name.slot.toNat (some v) }
  else none

/-- Set variables one after the other. -/
def bindAll (f : Frame) : List (Name × Value) → Option Frame
  | [] => some f
  | (name, v) :: rest =>
    match f.bind name v with
    | some f => f.bindAll rest
    | none => none

/-- The value of a variable, if it is set. -/
def read (f : Frame) (name : Name) : Except ScriptError Value :=
  match f.env[name.slot.toNat]? with
  | some (some v) => .ok v
  | _ => .error (.withMessage .noVariable
      ("variable " ++ (f.program.names.text? name).getD "?" ++ " is not set"))

/-- Leave a result on the stack, or raise what is wrong. -/
def finishWith (f : Frame) : Except ScriptError Value → Reply
  | .ok v => .next (f.push v)
  | .error e => .raise e f

/-- Go to a label, or on if there is no need to. -/
def jumpUnless (f : Frame) (holds : Bool) (l : Label) : Reply :=
  if holds then .next f else f.jump l

/-- The value of an operator. -/
def applyBinary : BinaryOp → Value → Value → Except ScriptError Value
  | .add, a, b => a.add b
  | .sub, a, b => a.sub b
  | .mul, a, b => a.mul b
  | .div, a, b => a.div b
  | .mod, a, b => a.mod b
  | .exp, a, b => a.pow b
  | .eq, a, b => .ok (.bool (a.equals b))
  | .ne, a, b => .ok (.bool (!a.equals b))
  | .lt, a, b => (a.relate b).map fun o => .bool o.isLT
  | .le, a, b => (a.relate b).map fun o => .bool o.isLE
  | .gt, a, b => (a.relate b).map fun o => .bool o.isGT
  | .ge, a, b => (a.relate b).map fun o => .bool o.isGE
  | .mem, a, b => a.indexIn b

/-- The head of a loop over a list. -/
def stepForList (f : Frame) (name : Name) (finish : Label) : Reply :=
  match f.stack with
  | counter :: source :: rest =>
    match counter, source with
    | .int counter, .list items =>
      -- A counter that went past the largest number is negative, and the loop ends.
      match if counter < 0 then none else items[counter.toNatClampNeg]? with
      | some item =>
        match { f with stack := .int (counter + 1) :: source :: rest }.bind name item with
        | some f => .next f
        | none => .fault
      | none => { f with stack := rest }.jump finish
    | _, _ => .raise (.withMessage .typeMismatch "for loop over a non-list") { f with stack := rest }
  | _ => .fault

/-- The head of a loop over numbers.  Past the largest number there is no next one; there the
upper bound is moved instead. -/
def stepForRange (f : Frame) (name : Name) (finish : Label) : Reply :=
  match f.stack with
  | last :: first :: rest =>
    match first, last with
    | .int first, .int last =>
      if last < first then { f with stack := rest }.jump finish
      else
        let bounds : List Value :=
          if first = Int64.maxValue then [.int (last - 1), .int first]
          else [.int last, .int (first + 1)]
        match { f with stack := bounds ++ rest }.bind name (.int first) with
        | some f => .next f
        | none => .fault
    | _, _ =>
      .raise (.withMessage .typeMismatch "range bounds must be integers") { f with stack := rest }
  | _ => .fault

/-- A scattering assignment from the list on top of the stack. -/
def stepScatter (f : Frame) (table : UInt16) : Reply :=
  match f.program.scatterTables[table.toNat]?, f.stack with
  | some t, source :: rest =>
    match source with
    | .list values =>
      -- The list stays on the stack, as the value of the assignment.
      match Scatter.distribute t values with
      | .error e => .raise e f
      | .ok shares =>
        match f.bindAll shares.bound with
        | some f => f.jump (shares.defaultDue.getD t.done)
        | none => .fault
    | _ =>
      .raise (.withMessage .typeMismatch "scatter assignment needs a list") { f with stack := rest }
  | _, _ => .fault

/-- The codes in a value that a clause lists; any value but a list takes every error. -/
def catchOf : Value → Catch
  | .list codes => .listed (codes.filterMap fun v => v.err?.map (·.code))
  | _ => .any

/-- Carry out an instruction; the place of the next one is already set. -/
def perform (f : Frame) (op : Op) : Reply :=
  match op, f.stack with
  -- Control.
  | .branch l, v :: rest | .choose l, v :: rest | .loopWhile l, v :: rest =>
    { f with stack := rest }.jumpUnless v.truth l
  | .jump l, _ => f.jump l
  | .forList name l, _ => f.stepForList name l
  | .forRange name l, _ => f.stepForRange name l
  -- Values that are dropped, and constants.
  | .pop, _ :: rest => .next { f with stack := rest }
  | .pushNull, _ => .next (f.push .null)
  | .pushInt n, _ => .next (f.push (.int n))
  | .pushFloat x, _ => .next (f.push (.float x))
  | .pushObj id, _ => .next (f.push (.obj id))
  | .pushEmptyList, _ => .next (f.push (.list []))
  | .pushLiteral l, _ =>
    match f.program.literals[l.slot.toNat]? with
    | some v => .next (f.push v)
    | none => .fault
  -- Lists and maps.
  | .wrapList, v :: rest => .next { f with stack := .list [v] :: rest }
  | .appendItem, v :: list :: rest => { f with stack := rest }.finishWith (list.push v)
  | .appendList, tail :: list :: rest =>
    match list, tail with
    | .list _, .list _ => { f with stack := rest }.finishWith (list.add tail)
    | _, _ => .raise ErrorCode.typeMismatch { f with stack := rest }
  | .checkSplice, v :: rest =>
    match v with
    | .list _ => .next f
    | _ => .raise (.withMessage .typeMismatch "only lists can be spliced") { f with stack := rest }
  | .indexSet, v :: index :: base :: rest => { f with stack := rest }.finishWith (base.indexSet index v)
  | .pushEmptyMap, _ => .next (f.push (.map []))
  | .mapInsert, v :: key :: map :: rest =>
    match key with
    | .str _ => { f with stack := rest }.finishWith (map.indexSet key v)
    | _ => .raise (.withMessage .typeMismatch "map keys must be strings") { f with stack := rest }
  -- The value that is kept aside while a place is written to.
  | .keepTop, v :: _ => .next { f with kept := v }
  | .pushKept, _ => .next { f with stack := f.kept :: f.stack, kept := .null }
  -- Operators.  The operand that was evaluated last is on top.
  | .binary op, b :: a :: rest => { f with stack := rest }.finishWith (applyBinary op a b)
  | .both l, v :: rest => if v.truth then .next { f with stack := rest } else f.jump l
  | .either l, v :: rest => if v.truth then f.jump l else .next { f with stack := rest }
  | .not, v :: rest => .next { f with stack := .bool (!v.truth) :: rest }
  | .negate, v :: rest => { f with stack := rest }.finishWith v.neg
  | .index, index :: base :: rest => { f with stack := rest }.finishWith (base.index index)
  | .indexOver, index :: base :: _ => f.finishWith (base.index index)
  | .range, last :: first :: base :: rest => { f with stack := rest }.finishWith (base.range first last)
  -- Variables.
  | .load name, _ => f.finishWith (f.read name)
  | .store name, v :: _ =>
    match f.bind name v with
    | some f => .next f
    | none => .fault
  -- What only the world can tell.
  | .getProp, property :: object :: rest => .ask (.getProp object property) { f with stack := rest }
  | .getPropOver, property :: object :: _ => .ask (.getProp object property) f
  | .putProp, v :: property :: object :: rest =>
    .ask (.putProp object property v) { f with stack := rest }
  | .callMethod, args :: name :: object :: rest =>
    .ask (.callMethod object name args) { f with stack := rest }
  | .callBuiltin g, args :: rest =>
    match args with
    | .list args => .ask (.callBuiltin g args) { f with stack := rest }
    | _ => .raise ErrorCode.typeMismatch { f with stack := rest }
  -- A list that is dealt to variables.
  | .scatter table, _ => f.stepScatter table
  -- Handlers: prepared one by one, moved into a scope, and dropped with it.
  | .pushCatch l, codes :: rest =>
    .next { f with stack := rest, catches := (catchOf codes, l) :: f.catches }
  | .enterTry count _, _ =>
    let scope : Scope := ⟨(f.catches.take count.toNat).reverse, f.stack.length⟩
    .next { f with catches := f.catches.drop count.toNat, scopes := scope :: f.scopes }
  | .leaveTry l, _ =>
    match f.scopes with
    | scope :: scopes => { f with scopes, stack := cut scope.height f.stack }.jump l
    | [] => f.jump l
  | .exit height l scopes, _ =>
    { f with
      scopes := f.scopes.drop (f.scopes.length - scopes.toNat)
      stack := cut height.toNat f.stack }.jump l
  -- The end of a call.
  | .returnTop, v :: _ => .return v
  | .returnNull, _ => .return .null
  | .finish, _ => .return .null
  | _, _ => .fault

/-- Carry out the next instruction.  Past the last one a program returns. -/
def step (f : Frame) : Reply :=
  match f.program.ops[f.pc]? with
  | none => .return .null
  | some op => { f with pc := f.pc + 1 }.perform op

/-- The innermost handler that takes an error, with the frame as it is when that handler starts.
Scopes without one are left on the way. -/
def handler? (f : Frame) (code : ErrorCode) : List Scope → Option (Label × Frame)
  | [] => none
  | scope :: scopes =>
    let f := { f with scopes, stack := cut scope.height f.stack }
    match scope.handlers.find? fun h => h.1.accepts code with
    | some (_, l) => some (l, f)
    | none => handler? f code scopes

/-- The line of the instruction that was carried out last. -/
def line (f : Frame) : Nat :=
  f.program.lineOf (f.pc - 1)

end Frame

end Lineage
