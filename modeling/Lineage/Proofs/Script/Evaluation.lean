/-
  Lineage.Proofs.Script.Evaluation

  What a script means, said on its syntax tree alone.

  An evaluation works on the variables and the world.  It gives a value, stops with an
  error, or needs more fuel than it has; fuel limits how often a `while` loop goes round
  and how long a method that the script calls may run, and nothing else.  A method that
  is called runs its program, as it does for every caller.

  Operands are evaluated from left to right.  A statement says how control leaves it
  (`Flow`), and each loop takes up what concerns it.  An assignment first works out the
  place that it writes to (`Place`): whatever containers are around an element are read
  then, before the right side is evaluated.
-/
import Mathlib.Algebra.Group.Nat.Defs
import Lineage.Proofs.Machine.Execution

namespace Lineage.Script

/-- The values of the variables; nothing until they are set. -/
abbrev Env := Array (Option Value)

/-- Why an evaluation gives no value. -/
inductive Stop where
  | raised (e : ScriptError)
  /-- Something did what code must never do. -/
  | faulted

/-- An evaluation; nothing if its fuel does not last. -/
def Eval (α : Type) : Type := Env → World → Option (Except Stop α × Env × World)

namespace Eval

variable {α β : Type}

instance : Monad Eval where
  pure a := fun env w => some (.ok a, env, w)
  bind x f := fun env w =>
    match x env w with
    | none => none
    | some (.error s, env, w) => some (.error s, env, w)
    | some (.ok a, env, w) => f a env w

@[simp] theorem pure_apply (a : α) (env : Env) (w : World) :
    (pure a : Eval α) env w = some (.ok a, env, w) := rfl

theorem bind_apply (x : Eval α) (f : α → Eval β) (env : Env) (w : World) :
    (x >>= f) env w =
      match x env w with
      | none => none
      | some (.error s, env, w) => some (.error s, env, w)
      | some (.ok a, env, w) => f a env w := rfl

instance : LawfulMonad Eval := by
  refine LawfulMonad.mk' Eval ?_ ?_ ?_
  · intro _ x
    funext env w
    show (x >>= pure) env w = x env w
    rw [bind_apply]
    rcases x env w with _ | ⟨_ | _, _, _⟩ <;> rfl
  · intros; rfl
  · intro _ _ _ x f g
    funext env w
    simp only [bind_apply]
    rcases x env w with _ | ⟨_ | _, _, _⟩ <;> rfl

def stop (s : Stop) : Eval α := fun env w => some (.error s, env, w)

def raise (e : ScriptError) : Eval α := stop (.raised e)

/-- The evaluation whose fuel never lasts. -/
def exhausted : Eval α := fun _ _ => none

/-- The result of an operation on values. -/
def of : Except ScriptError α → Eval α
  | .ok a => pure a
  | .error e => raise e

/-- Evaluate, and go on elsewhere after an error. -/
def rescue (x : Eval α) (handle : ScriptError → Eval α) : Eval α := fun env w =>
  match x env w with
  | some (.error (.raised e), env, w) => handle e env w
  | r => r

/-- The value of a variable, if it is set. -/
def get (names : Names) (name : Name) : Eval Value := fun env w =>
  match env[name.slot.toNat]? with
  | some (some v) => some (.ok v, env, w)
  | _ => some (.error (.raised (.withMessage .noVariable
      ("variable " ++ (names.text? name).getD "?" ++ " is not set"))), env, w)

/-- Set a variable. -/
def set (name : Name) (v : Value) : Eval Unit := fun env w =>
  some (.ok (), env.setIfInBounds name.slot.toNat (some v), w)

/-- Set variables one after the other. -/
def setAll : List (Name × Value) → Eval Unit
  | [] => pure ()
  | (name, v) :: rest => do
    set name v
    setAll rest

end Eval

/-- For whom a script is evaluated. -/
structure Scene where
  names : Names
  /-- The call whose script it is. -/
  call : Activation
  /-- How many calls wait for it. -/
  depth : Nat
  fuel : Nat

/-- Ask the world. -/
def Scene.ask (s : Scene) (q : Request) : Eval Value := fun env w =>
  match s.call.serve (Activation.execute s.fuel (s.depth + 1)) s.depth q w with
  | none => none
  | some (.returned v, w) => some (.ok v, env, w)
  | some (.raised e, w) => some (.error (.raised e), env, w)
  | some (.faulted, w) => some (.error .faulted, env, w)

/-- What can be assigned to, with its operands evaluated. -/
structure Place where
  read : Eval Value
  write : Value → Eval Unit

namespace Place

/-- A variable. -/
def named (s : Scene) (name : Name) : Place where
  read := Eval.get s.names name
  write := Eval.set name

/-- A property of an object. -/
def property (s : Scene) (object name : Value) : Place where
  read := s.ask (.getProp object name)
  write v := do
    let _ ← s.ask (.putProp object name v)

/-- An element of a container that stands in another place.  The container is the one that was read
there; writing the element puts a changed container into that place. -/
def element (outer : Place) (container index : Value) : Place where
  read := Eval.of (container.index index)
  write v := do outer.write (← Eval.of (container.indexSet index v))

end Place

/-- A target as an entry of a scattering assignment, whose default is left to the evaluation. -/
def Target.entry : Target → ScatterEntry
  | .required name => .required name
  | .optional name _ => .optional name none
  | .rest name => .rest name

/-- What a scattering assignment to these targets needs to know to deal values. -/
def scatterShape (targets : List Target) : ScatterTable := ⟨targets.map Target.entry, ⟨0⟩⟩

mutual

/-- Evaluate an expression. -/
def Expr.eval (s : Scene) : Expr → Eval Value
  | .value v => pure v
  | .var name => Eval.get s.names name
  | .and left right => do
    let v ← left.eval s
    if v.truth then right.eval s else pure v
  | .or left right => do
    let v ← left.eval s
    if v.truth then pure v else right.eval s
  | .binary op left right => do
    let a ← left.eval s
    let b ← right.eval s
    Eval.of (Frame.applyBinary op a b)
  | .unary .neg operand => do
    let v ← operand.eval s
    Eval.of v.neg
  | .unary .not operand => do
    let v ← operand.eval s
    pure (.bool (!v.truth))
  | .index base index => do
    let b ← base.eval s
    let i ← index.eval s
    Eval.of (b.index i)
  | .range base first last => do
    let b ← base.eval s
    let i ← first.eval s
    let j ← last.eval s
    Eval.of (b.range i j)
  | .prop object property => do
    let o ← object.eval s
    let p ← property.eval s
    s.ask (.getProp o p)
  | .call function args => do
    let vs ← evalArgs s args
    match Builtin.find? function with
    | some f => s.ask (.callBuiltin f vs)
    | none => Eval.stop .faulted
  | .verb object name args => do
    let o ← object.eval s
    let n ← name.eval s
    let vs ← evalArgs s args
    s.ask (.callMethod o n (.list vs))
  | .cond condition consequence alternative => do
    let v ← condition.eval s
    if v.truth then consequence.eval s else alternative.eval s
  | .list items => do
    let vs ← evalArgs s items
    pure (.list vs)
  | .map entries => evalEntries s (.map []) entries
  | .scatter targets source => do
    let v ← source.eval s
    match v with
    | .list values => do
      let shares ← Eval.of (Scatter.distribute (scatterShape targets) values)
      Eval.setAll shares.bound
      evalDefaults s (values.length - (scatterShape targets).requiredCount) targets
      pure v
    | _ => Eval.raise (.withMessage .typeMismatch "scatter assignment needs a list")
  | .assign target value => do
    let place ← target.place s
    let v ← value.eval s
    place.write v
    pure v

/-- Evaluate the operands of the target of an assignment. -/
def Expr.place (s : Scene) : Expr → Eval Place
  | .var name => pure (.named s name)
  | .prop object property => do
    let o ← object.eval s
    let p ← property.eval s
    pure (.property s o p)
  | .index base index => do
    let outer ← base.place s
    let container ← outer.read
    let i ← index.eval s
    pure (.element outer container i)
  | _ => Eval.stop .faulted

/-- Evaluate arguments. -/
def evalArgs (s : Scene) : List Arg → Eval (List Value)
  | [] => pure []
  | .item e :: rest => do
    let v ← e.eval s
    evalMoreArgs s [v] rest
  | .splice e :: rest => do
    let v ← e.eval s
    match v with
    | .list vs => evalMoreArgs s vs rest
    | _ => Eval.raise (.withMessage .typeMismatch "only lists can be spliced")

/-- Evaluate arguments after others. -/
def evalMoreArgs (s : Scene) (done : List Value) : List Arg → Eval (List Value)
  | [] => pure done
  | .item e :: rest => do
    let v ← e.eval s
    evalMoreArgs s (done ++ [v]) rest
  | .splice e :: rest => do
    let v ← e.eval s
    match v with
    | .list vs => evalMoreArgs s (done ++ vs) rest
    | _ => Eval.raise ErrorCode.typeMismatch

/-- Evaluate entries of a map and put them into it. -/
def evalEntries (s : Scene) (m : Value) : List (Expr × Expr) → Eval Value
  | [] => pure m
  | (key, value) :: rest => do
    let k ← key.eval s
    let v ← value.eval s
    match k with
    | .str _ => do
      let m ← Eval.of (m.indexSet k v)
      evalEntries s m rest
    | _ => Eval.raise (.withMessage .typeMismatch "map keys must be strings")

/-- Evaluate the defaults of the optional targets that took nothing, which are those after the first
`taken` ones. -/
def evalDefaults (s : Scene) (taken : Nat) : List Target → Eval Unit
  | [] => pure ()
  | .optional name (some default) :: rest =>
    match taken with
    | taken + 1 => evalDefaults s taken rest
    | 0 => do
      let v ← default.eval s
      Eval.set name v
      evalDefaults s 0 rest
  | .optional _ none :: rest => evalDefaults s (taken - 1) rest
  | _ :: rest => evalDefaults s taken rest

end

/-! ## Statements -/

/-- How control leaves a statement. -/
inductive Flow where
  | next
  | break
  | continue
  | return (v : Value)

/-- What a loop does after its body: go round again, or leave. -/
def Flow.again (again : Eval Flow) : Flow → Eval Flow
  | .next | .continue => again
  | .break => pure .next
  | .return v => pure (.return v)

/-- A loop over the elements of a list. -/
def forEach (name : Name) (body : Eval Flow) : List Value → Eval Flow
  | [] => pure .next
  | v :: rest => do
    Eval.set name v
    let flow ← body
    flow.again (forEach name body rest)

/-- A loop over `count` numbers from `first` on. -/
def forCount (name : Name) (body : Eval Flow) : Nat → Int64 → Eval Flow
  | 0, _ => pure .next
  | count + 1, first => do
    Eval.set name (.int first)
    let flow ← body
    flow.again (forCount name body count (first + 1))

/-- A loop while a condition holds, for as many rounds as there is fuel. -/
def whileLoop (condition : Eval Value) (body : Eval Flow) : Nat → Eval Flow
  | 0 => Eval.exhausted
  | fuel + 1 => do
    let v ← condition
    if v.truth then do
      let flow ← body
      flow.again (whileLoop condition body fuel)
    else pure .next

/-- How many numbers there are from one to another, both included. -/
def countFromTo (first last : Int64) : Nat := (last.toInt - first.toInt + 1).toNat

/-- Evaluate what a clause takes. -/
def Codes.eval (s : Scene) : Codes → Eval Catch
  | .any => pure .any
  | .listed codes => do
    let vs ← evalArgs s codes
    pure (Frame.catchOf (.list vs))

/-- Evaluate what the clauses of a `try` statement take, in order. -/
def evalCatches (s : Scene) : List Handler → Eval (List Catch)
  | [] => pure []
  | .mk _ codes _ :: rest => do
    let c ← codes.eval s
    let cs ← evalCatches s rest
    pure (c :: cs)

mutual

/-- Evaluate a statement. -/
def Stmt.eval (s : Scene) : Stmt → Eval Flow
  | .mk _ _ node => node.eval s

def StmtNode.eval (s : Scene) : StmtNode → Eval Flow
  | .branch arms otherwise =>
    evalArms s (match otherwise with
      | some body => evalBlock s body
      | none => pure .next) arms
  | .forList name source body => do
    let v ← source.eval s
    match v with
    -- Positions are 64-bit numbers, so no loop gets beyond the largest one.
    | .list items => forEach name (evalBlock s body) (items.take (2 ^ 63))
    | _ => Eval.raise (.withMessage .typeMismatch "for loop over a non-list")
  | .forRange name first last body => do
    let a ← first.eval s
    let b ← last.eval s
    match a, b with
    | .int a, .int b => forCount name (evalBlock s body) (countFromTo a b) a
    | _, _ => Eval.raise (.withMessage .typeMismatch "range bounds must be integers")
  | .while condition body => whileLoop (condition.eval s) (evalBlock s body) s.fuel
  | .try body handlers => do
    let catches ← evalCatches s handlers
    Eval.rescue (evalBlock s body) fun e => evalHandlers s e catches handlers
  | .break => pure .break
  | .continue => pure .continue
  | .return (some e) => do
    let v ← e.eval s
    pure (.return v)
  | .return none => pure (.return .null)
  | .expr e => do
    let _ ← e.eval s
    pure .next

/-- Evaluate statements in a row. -/
def evalBlock (s : Scene) : List Stmt → Eval Flow
  | [] => pure .next
  | stmt :: rest => do
    let flow ← stmt.eval s
    match flow with
    | .next => evalBlock s rest
    | flow => pure flow

/-- Evaluate the first arm whose condition holds. -/
def evalArms (s : Scene) (otherwise : Eval Flow) : List (Expr × List Stmt) → Eval Flow
  | [] => otherwise
  | (condition, body) :: rest => do
    let v ← condition.eval s
    if v.truth then evalBlock s body else evalArms s otherwise rest

/-- Hand an error to the first clause that takes it. -/
def evalHandlers (s : Scene) (e : ScriptError) : List Catch → List Handler → Eval Flow
  | c :: catches, .mk name _ body :: rest =>
    if c.accepts e.code then do
      match name with
      | some name => Eval.set name (.err e)
      | none => pure ()
      evalBlock s body
    else evalHandlers s e catches rest
  | _, _ => Eval.raise e

end

/-- What the statements of a script come to: the value that they return, and null if they return
none.  No control may leave them by `break` or `continue`. -/
def Flow.verdict : Except Stop Flow → Verdict
  | .ok .next => .returned .null
  | .ok (.return v) => .returned v
  | .ok .break | .ok .continue => .faulted
  | .error (.raised e) => .raised e
  | .error .faulted => .faulted

/-- Evaluate a script for a call with `depth` callers. -/
def SyntaxTree.eval (tree : SyntaxTree) (fuel depth : Nat) (call : Activation) (env : Env) : Attempt :=
  fun w =>
    (evalBlock ⟨tree.names, call, depth, fuel⟩ tree.statements env w).map fun (r, _, w) =>
      (Flow.verdict r, w)

end Lineage.Script
