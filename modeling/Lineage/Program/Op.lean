/-
  Lineage.Program.Op

  The instructions of the stack machine.

  Labels and the heights that an instruction carries are 16 bits wide.
-/
import Lineage.Builtin.Table
import Lineage.Script.Tree

namespace Lineage

/-- A slot in a table of a program: of its jump targets, or of its literals. -/
structure Label where
  slot : UInt16
  deriving DecidableEq

/-- The slot for a place in a table. -/
def Label.ofNat (n : Nat) : Label := ⟨UInt16.ofNat n⟩

inductive Op where
  /-- Take a condition; go to the label unless it holds.  The three differ only in what they
  were made for: a statement, a conditional expression, a loop. -/
  | branch (otherwise : Label)
  | choose (otherwise : Label)
  | loopWhile (finish : Label)
  | jump (target : Label)
  /-- With a list and a counter on the stack: bind the next element, or drop both and leave. -/
  | forList (name : Script.Name) (finish : Label)
  /-- With two bounds on the stack: bind the next number, or drop both and leave. -/
  | forRange (name : Script.Name) (finish : Label)
  | pop
  | pushNull
  | pushInt (n : Int64)
  | pushFloat (x : Binary64)
  | pushObj (id : ObjectId)
  | pushEmptyList
  | pushLiteral (slot : Label)
  | appendItem
  | appendList
  /-- Replace container, index and value by the changed container. -/
  | indexSet
  | wrapList
  /-- Refuse a spliced value that is no list. -/
  | checkSplice
  | pushEmptyMap
  | mapInsert
  /-- Keep a copy of the top value aside. -/
  | keepTop
  /-- Push the value that was kept. -/
  | pushKept
  | binary (op : Script.BinaryOp)
  /-- Keep the top value and go to the label if it does not hold; drop it otherwise. -/
  | both (done : Label)
  /-- Keep the top value and go to the label if it holds; drop it otherwise. -/
  | either (done : Label)
  | not
  | negate
  | index
  /-- Like `index`, leaving container and index in place. -/
  | indexOver
  | load (name : Script.Name)
  | store (name : Script.Name)
  | range
  | getProp
  /-- Like `getProp`, leaving object and name in place. -/
  | getPropOver
  | putProp
  | callMethod
  | returnTop
  | returnNull
  | finish
  | callBuiltin (f : Builtin)
  | scatter (table : UInt16)
  | pushCatch (handler : Label)
  | enterTry (count : UInt16) (finish : Label)
  | leaveTry (finish : Label)
  /-- Leave a loop: close the scopes above a number, cut the stack to a height, and go on. -/
  | exit (height : UInt16) (target : Label) (scopes : UInt16)

/-- One target of a scattering assignment, with the label of its default if it has one. -/
inductive ScatterEntry where
  | required (name : Script.Name)
  | rest (name : Script.Name)
  | optional (name : Script.Name) (default : Option Label)

/-- What a `scatter` instruction needs to know. -/
structure ScatterTable where
  entries : List ScatterEntry
  /-- Where execution continues when no default is due. -/
  done : Label

namespace ScatterTable

def requiredCount (t : ScatterTable) : Nat :=
  t.entries.countP fun
    | .required _ => true
    | _ => false

def optionalCount (t : ScatterTable) : Nat :=
  t.entries.countP fun
    | .optional _ _ => true
    | _ => false

def hasRest (t : ScatterTable) : Bool :=
  t.entries.any fun
    | .rest _ => true
    | _ => false

end ScatterTable

end Lineage
