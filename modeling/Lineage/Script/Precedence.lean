/-
  Lineage.Script.Precedence

  Building an expression from a flat run of operators and operands.

  Every operator has a binding strength.  `climb` takes as much of a run as operators
  stronger than a bound can hold together; what is left goes to the operators around
  it.  An operand is an action that reads it, so that names are met in the order of
  evaluation of the operators: a prefix operator after its operand, a postfix operator
  after its base.
-/
import Lineage.Script.Tree

namespace Lineage.Script

/-- What is known while a script is read. -/
structure Scope where
  names : Names
  /-- The variables that `let` has introduced. -/
  declared : List Name
  /-- Whether error codes that are not built in may be written. -/
  customErrors : Bool

/-- Reading a part of a script. -/
abbrev Reading (α : Type) := StateT Scope (Except CompileError) α

/-- A part of a run. -/
inductive Piece where
  | operand (read : Reading Expr)
  /-- A prefix operator. -/
  | before (strength : Nat) (apply : Expr → Reading Expr)
  /-- An infix operator. -/
  | between (strength : Nat) (groupsRight : Bool) (combine : Expr → Expr → Expr)
  /-- A postfix operator, whose own parts are read when it is applied. -/
  | after (strength : Nat) (apply : Reading (Expr → Expr))

namespace Reading

/-- Apply a postfix operator to its base.  Where both cannot be read, the operator's own parts
are reported. -/
def attach (base : Reading Expr) (apply : Reading (Expr → Expr)) : Reading Expr := fun scope =>
  match base scope with
  | .ok (e, scope) => (apply scope).map fun (f, scope) => (f e, scope)
  | .error outer =>
    match apply scope with
    | .ok _ => .error outer
    | .error inner => .error inner

end Reading

mutual

/-- Read an operand and everything that operators stronger than `bound` attach to it. -/
def climb (fuel : Nat) (bound : Nat) (run : List Piece) : Reading Expr × List Piece :=
  match fuel, run with
  | fuel + 1, .operand read :: rest => extend fuel bound read rest
  | fuel + 1, .before strength apply :: rest =>
    let (operand, rest) := climb fuel (strength - 1) rest
    extend fuel bound (operand >>= apply) rest
  -- Every run starts with an operand or a prefix operator.
  | _, run => (pure default, run)

/-- Attach to `left` what operators stronger than `bound` hold. -/
def extend (fuel : Nat) (bound : Nat) (left : Reading Expr) (run : List Piece) :
    Reading Expr × List Piece :=
  match fuel, run with
  | fuel + 1, .between strength groupsRight combine :: rest =>
    if bound < strength then
      let (right, rest) := climb fuel (if groupsRight then strength - 1 else strength) rest
      extend fuel bound (do return combine (← left) (← right)) rest
    else (left, run)
  | fuel + 1, .after strength apply :: rest =>
    if bound < strength then extend fuel bound (.attach left apply) rest else (left, run)
  | _, run => (left, run)

end

/-- Read a whole run. -/
def Piece.readAll (run : List Piece) : Reading Expr :=
  (climb (2 * run.length + 2) 0 run).1

/-! ## Binding strengths, from the weakest -/

namespace Strength

def assignment : Nat := 10
def conditional : Nat := 20
def either : Nat := 30
def both : Nat := 40
def equality : Nat := 50
def relation : Nat := 60
def membership : Nat := 70
def sum : Nat := 80
def product : Nat := 90
def power : Nat := 100
def sign : Nat := 110
def access : Nat := 120

end Strength

end Lineage.Script
