/-
  Lineage.Program.Draft

  Code while it is being made.

  A draft is a program without its last instruction, with what code for the rest of
  the script depends on: the loops around it, how many values the code so far leaves
  on the stack, and how many `try` bodies it is in.
-/
import Lineage.Program.Basic
import Lineage.Script.Tree

namespace Lineage

open Script (CompileError)

/-- Where `break` and `continue` go, with the heights of the stack there. -/
structure LoopExits where
  continueTo : Label
  continueHeight : Nat
  breakTo : Label
  breakHeight : Nat
  /-- How many `try` bodies surround the loop. -/
  scopes : Nat

structure Draft where
  ops : Array Op := #[]
  labels : Array JumpLabel := #[]
  literals : Array Value := #[]
  scatterTables : Array ScatterTable := #[]
  spans : Array (Nat × Nat) := #[]
  /-- The loops around the code to come, innermost first. -/
  loops : List LoopExits := []
  /-- How many values the code so far leaves on the stack. -/
  height : Nat := 0
  /-- How many `try` bodies surround the code to come. -/
  scopes : Nat := 0

/-- Making a part of a program. -/
abbrev Drafting (α : Type) := StateT Draft (Except CompileError) α

namespace Draft

/-- The place of the next instruction. -/
def here (d : Draft) : UInt16 :=
  UInt16.ofNat d.ops.size

/-- Add an instruction that leaves the stack as high as it was. -/
def emit (op : Op) : Drafting Unit :=
  modify fun d => { d with ops := d.ops.push op }

/-- Change the height that the code so far is taken to leave. -/
def adjust (change : Nat → Nat) : Drafting Unit :=
  modify fun d => { d with height := change d.height }

/-- Add an instruction that leaves one more value. -/
def emitPush (op : Op) : Drafting Unit := do
  emit op
  adjust (· + 1)

/-- Add an instruction that takes `n` more values than it leaves. -/
def emitTake (op : Op) (n : Nat) : Drafting Unit := do
  emit op
  adjust (· - n)

/-- A new label, at the next instruction until it is placed. -/
def newLabel (owner : Option Script.Name) : Drafting Label := do
  let d ← get
  let fresh : Label := .ofNat d.labels.size
  set { d with labels := d.labels.push ⟨owner, d.here⟩ }
  return fresh

/-- Place a label at the next instruction. -/
def place (l : Label) : Drafting Unit :=
  modify fun d =>
    { d with labels := d.labels.modify l.slot.toNat fun jump => { jump with position := d.here } }

/-- The slot of a literal; equal literals share one. -/
def literal (v : Value) : Drafting Label := do
  let d ← get
  match d.literals.findIdx? (·.equals v) with
  | some i => return .ofNat i
  | none =>
    let fresh : Label := .ofNat d.literals.size
    set { d with literals := d.literals.push v }
    return fresh

/-- Note that the code of a statement starts here. -/
def startStatement (line : Nat) : Drafting Unit :=
  modify fun d => { d with spans := d.spans.push (d.ops.size, line) }

/-- Add a table for a `scatter` instruction. -/
def scatterTable (t : ScatterTable) : Drafting UInt16 := do
  let d ← get
  let fresh := UInt16.ofNat d.scatterTables.size
  set { d with scatterTables := d.scatterTables.push t }
  return fresh

/-- The program of a finished draft. -/
def program (d : Draft) (names : Script.Names) : Program where
  literals := d.literals
  labels := d.labels
  names := names
  scatterTables := d.scatterTables
  ops := d.ops.push .finish
  spans := d.spans.toList

end Draft

end Lineage
