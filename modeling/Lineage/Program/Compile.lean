/-
  Lineage.Program.Compile

  From syntax trees to programs.

  The code of an expression leaves its value on the stack, and that of a statement
  leaves the stack as it found it; the two values that a `for` loop keeps on the stack
  while it runs are pushed and dropped by its own code.

  An assignment to an element fetches every container on the way in, and on the way
  out puts each changed one into the one around it, ending at the variable or property
  that holds the outermost.
-/
import Lineage.Program.Draft
import Lineage.Script.Reader

namespace Lineage

open Script (Expr Arg Target Codes Stmt StmtNode Handler CompileError)

namespace Draft

/-- Code for a constant. -/
def constant : Value → Drafting Unit
  | .null => emitPush .pushNull
  | .obj id => emitPush (.pushObj id)
  | .int n => emitPush (.pushInt n)
  | .float x => emitPush (.pushFloat x)
  | v => do emitPush (.pushLiteral (← literal v))

/-- Code that puts changed containers into the ones around them, and the outermost into the
variable or property of an assignment. -/
def putBack : Expr → Drafting Unit
  | .index base _ => do
    emitTake .indexSet 2
    putBack base
  | .var name => emit (.store name)
  | .prop _ _ => emitTake .putProp 2
  | _ => throw .invalidAssignment

/-- Whether an assignment is to an element. -/
def isIndexed : Expr → Bool
  | .index _ _ => true
  | _ => false

/-- The entries of a scattering assignment, with a new label for each default. -/
def scatterEntries : List Target → Drafting (List ScatterEntry)
  | [] => return []
  | target :: rest => do
    let entry ← match target with
      | .required name => pure (.required name)
      | .rest name => pure (.rest name)
      | .optional name none => pure (.optional name none)
      | .optional name (some _) => do
        let label ← newLabel none
        pure (.optional name (some label))
    return entry :: (← scatterEntries rest)

mutual

/-- Code that leaves the value of an expression. -/
def expr : Expr → Drafting Unit
  | .value v => constant v
  | .var name => emitPush (.load name)
  | .and left right => do
    expr left
    let done ← newLabel none
    emitTake (.both done) 1
    expr right
    place done
  | .or left right => do
    expr left
    let done ← newLabel none
    emitTake (.either done) 1
    expr right
    place done
  | .binary op left right => do
    expr left
    expr right
    emitTake (.binary op) 1
  | .unary .neg operand => do
    expr operand
    emit .negate
  | .unary .not operand => do
    expr operand
    emit .not
  | .index base index => do
    expr base
    expr index
    emitTake .index 1
  | .range base first last => do
    expr base
    expr first
    expr last
    emitTake .range 2
  | .prop object property => do
    expr object
    expr property
    emitTake .getProp 1
  | .call function args => do
    let some f := Builtin.find? function | throw (.unknownBuiltin function)
    arguments args
    emit (.callBuiltin f)
  | .verb object name args => do
    expr object
    expr name
    arguments args
    emitTake .callMethod 2
  | .cond condition consequence alternative => do
    expr condition
    let otherwise ← newLabel none
    emitTake (.choose otherwise) 1
    expr consequence
    let done ← newLabel none
    emitTake (.jump done) 1
    place otherwise
    expr alternative
    place done
  | .list items => arguments items
  | .map items => do
    emitPush .pushEmptyMap
    entries items
  | .scatter targets source => do
    expr source
    let table ← scatterEntries targets
    let done ← newLabel none
    emit (.scatter (← scatterTable ⟨table, done⟩))
    defaults targets table
    place done
  | .assign target value => do
    location false target
    expr value
    if isIndexed target then emit .keepTop
    putBack target
    if isIndexed target then
      emit .pop
      emit .pushKept

/-- Code for what an assignment needs under the new value.  A container is fetched only where
something in it is written (`inner`). -/
def location (inner : Bool) : Expr → Drafting Unit
  | .index base index => do
    location true base
    expr index
    if inner then emitPush .indexOver
  | .var name => do
    if inner then emitPush (.load name)
  | .prop object property => do
    expr object
    expr property
    if inner then emitPush .getPropOver
  | _ => throw .invalidAssignment

/-- Code that leaves a list of arguments. -/
def arguments : List Arg → Drafting Unit
  | [] => emitPush .pushEmptyList
  | .item e :: rest => do
    expr e
    emit .wrapList
    moreArguments rest
  | .splice e :: rest => do
    expr e
    emit .checkSplice
    moreArguments rest

/-- Code that adds arguments to a list. -/
def moreArguments : List Arg → Drafting Unit
  | [] => return
  | .item e :: rest => do
    expr e
    emitTake .appendItem 1
    moreArguments rest
  | .splice e :: rest => do
    expr e
    emitTake .appendList 1
    moreArguments rest

/-- Code that adds entries to a map. -/
def entries : List (Expr × Expr) → Drafting Unit
  | [] => return
  | (key, value) :: rest => do
    expr key
    expr value
    emitTake .mapInsert 2
    entries rest

/-- Code for the defaults of a scattering assignment.  Each runs into the next. -/
def defaults : List Target → List ScatterEntry → Drafting Unit
  | .optional name (some default) :: rest, .optional _ (some label) :: table => do
    place label
    expr default
    emit (.store name)
    emitTake .pop 1
    defaults rest table
  | _ :: rest, _ :: table => defaults rest table
  | _, _ => return

end

/-- Code for `break` or `continue`. -/
def leaveLoop (word : String) (height : LoopExits → Nat) (target : LoopExits → Label) :
    Drafting Unit := do
  match (← get).loops with
  | [] => throw (.exitOutsideLoop word)
  | exits :: _ =>
    emit (.exit (UInt16.ofNat (height exits)) (target exits) (UInt16.ofNat exits.scopes))

/-- The body of a loop between its head, at `top`, and `finish`, with the values that the loop
keeps on the stack. -/
def loopBody (top finish : Label) (kept : Nat) (body : Drafting Unit) : Drafting Unit := do
  -- Where `break` and `continue` go, and how many values are on the stack there.
  modify fun d =>
    { d with loops := ⟨top, d.height, finish, d.height - kept, d.scopes⟩ :: d.loops }
  body
  emit (.jump top)
  modify fun d => { d with loops := d.loops.tail }
  place finish
  -- The values of the loop are gone, whichever way it was left.
  adjust (· - kept)

/-- Code that prepares the handlers of a `try` statement, and their labels. -/
def catches : List Handler → Drafting (List Label)
  | [] => return []
  | .mk _ codes _ :: rest => do
    match codes with
    | .listed codes => arguments codes
    | .any => emitPush (.pushInt 0)
    -- What the clause takes goes from the stack to the handlers that are prepared.
    let handler ← newLabel none
    emit (.pushCatch handler)
    return handler :: (← catches rest)

mutual

/-- Code for a statement. -/
def statement : Stmt → Drafting Unit
  | .mk line _ node => do
    startStatement line
    statementNode node

def statementNode : StmtNode → Drafting Unit
  | .branch branches otherwise => do
    let finish ← newLabel none
    arms finish branches
    match otherwise with
    | some body => block body
    | none => pure ()
    place finish
  | .forList name source body => do
    expr source
    -- The counter, on top of the list.
    emitPush (.pushInt 0)
    let top ← newLabel (some name)
    let finish ← newLabel (some name)
    place top
    emit (.forList name finish)
    loopBody top finish 2 (block body)
  | .forRange name first last body => do
    expr first
    expr last
    let top ← newLabel (some name)
    let finish ← newLabel (some name)
    place top
    emit (.forRange name finish)
    loopBody top finish 2 (block body)
  | .while condition body => do
    let top ← newLabel none
    let finish ← newLabel none
    place top
    expr condition
    emitTake (.loopWhile finish) 1
    loopBody top finish 0 (block body)
  | .try body handlers => do
    let labels ← catches handlers
    -- What the clauses take is no longer on the stack.
    adjust (· - handlers.length)
    let finish ← newLabel none
    emit (.enterTry (UInt16.ofNat handlers.length) finish)
    modify fun d => { d with scopes := d.scopes + 1 }
    block body
    modify fun d => { d with scopes := d.scopes - 1 }
    emit (.leaveTry finish)
    handlerBodies finish handlers labels
    place finish
  | .break => leaveLoop "break" (·.breakHeight) (·.breakTo)
  | .continue => leaveLoop "continue" (·.continueHeight) (·.continueTo)
  | .return (some e) => do
    expr e
    emitTake .returnTop 1
  | .return none => emit .returnNull
  | .expr e => do
    expr e
    emitTake .pop 1

/-- Code for statements in a row. -/
def block : List Stmt → Drafting Unit
  | [] => return
  | s :: rest => do
    statement s
    block rest

/-- Code for the conditions of a branch and what they guard. -/
def arms (finish : Label) : List (Expr × List Stmt) → Drafting Unit
  | [] => return
  | (condition, body) :: rest => do
    expr condition
    let next ← newLabel none
    emitTake (.branch next) 1
    block body
    emit (.jump finish)
    place next
    arms finish rest

/-- Code for the bodies of handlers, which are entered with the error on the stack. -/
def handlerBodies (finish : Label) : List Handler → List Label → Drafting Unit
  | .mk name _ body :: rest, label :: labels => do
    place label
    -- The error that is handled.
    adjust (· + 1)
    if let some name := name then emit (.store name)
    emitTake .pop 1
    block body
    -- The last handler runs into what follows the statement.
    if !rest.isEmpty then emit (.jump finish)
    handlerBodies finish rest labels
  | _, _ => return

end

end Draft

/-- Compile a script that has been read. -/
def Script.SyntaxTree.compile (tree : Script.SyntaxTree) : Except CompileError Program := do
  let (_, draft) ← (Draft.block tree.statements).run {}
  return draft.program tree.names

/-- Compile a script. -/
def Program.compile (source : String) (customErrors : Bool) : Except CompileError Program := do
  (← Script.SyntaxTree.read source customErrors).compile

end Lineage
