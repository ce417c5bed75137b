/-
  Lineage.Program.Basic

  Compiled scripts.
-/
import Lineage.Program.Op
import Lineage.Value.Literal
import Lineage.Value.Order

namespace Lineage

/-- A place that jumps may go to. -/
structure JumpLabel where
  /-- The variable of the loop that the label belongs to. -/
  owner : Option Script.Name
  position : UInt16

structure Program where
  literals : Array Value
  labels : Array JumpLabel
  names : Script.Names
  scatterTables : Array ScatterTable
  ops : Array Op
  /-- For each statement, in the order of the code: where its code starts, and its line. -/
  spans : List (Nat × Nat)

/-- What a program does not have. -/
inductive LookupError where
  | noVariable (name : String)
  | noLiteral (v : Value)

/-- The text of the error. -/
def LookupError.message : LookupError → String
  | .noVariable name => "no variable named " ++ name
  | .noLiteral v => "no literal " ++ v.literal

namespace Program

/-- The line of the statement whose code an instruction is in. -/
def lineOf (p : Program) (pc : Nat) : Nat :=
  ((p.spans.takeWhile fun s => s.1 ≤ pc).getLast?.map Prod.snd).getD 1

/-- The slot of a variable. -/
def slotOf (p : Program) (name : String) : Except LookupError Script.Name :=
  match p.names.find? name with
  | some n => .ok n
  | none => .error (.noVariable name)

/-- The slot of a literal that equals a value. -/
def literalSlot (p : Program) (v : Value) : Except LookupError Label :=
  match p.literals.findIdx? (·.equals v) with
  | some i => .ok (.ofNat i)
  | none => .error (.noLiteral v)

end Program

end Lineage
