/-
  Lineage.Program.Listing

  Programs as text.

  A listing holds the literals, the jump labels, the variables, and then every
  instruction after its place, with a mark before the code of each statement.
-/
import Lineage.Program.Basic

namespace Lineage

def Label.text (l : Label) : String :=
  "Label(" ++ toString l.slot.toNat ++ ")"

/-- The text of a variable in an instruction. -/
def Script.Name.text (n : Script.Name) : String :=
  "Name(" ++ toString n.slot.toNat ++ ")"

namespace Script.BinaryOp

/-- The instruction that an operator is compiled to. -/
def opcode : Script.BinaryOp → String
  | .add => "Add"
  | .sub => "Sub"
  | .mul => "Mul"
  | .div => "Div"
  | .mod => "Mod"
  | .exp => "Exp"
  | .eq => "Eq"
  | .ne => "Ne"
  | .lt => "Lt"
  | .le => "Le"
  | .gt => "Gt"
  | .ge => "Ge"
  | .mem => "In"

end Script.BinaryOp

namespace Op

/-- An instruction with one operand. -/
def applied (name operand : String) : String :=
  name ++ "(" ++ operand ++ ")"

/-- An instruction with named operands. -/
def withFields (name : String) (fields : List (String × String)) : String :=
  name ++ " \x7b " ++ ", ".intercalate (fields.map fun f => f.1 ++ ": " ++ f.2) ++ " \x7d"

/-- The text of a height of the stack. -/
def heightText (n : UInt16) : String :=
  applied "Offset" (toString n.toNat)

def text : Op → String
  | .branch l => applied "If" l.text
  | .choose l => applied "IfQues" l.text
  | .loopWhile l => applied "While" l.text
  | .jump l => withFields "Jump" [("label", l.text)]
  | .forList n l => withFields "ForList" [("id", n.text), ("end_label", l.text)]
  | .forRange n l => withFields "ForRange" [("id", n.text), ("end_label", l.text)]
  | .pop => "Pop"
  | .pushNull => "ImmNone"
  | .pushInt n => applied "ImmInt" (Numeral.write n)
  | .pushFloat x => applied "ImmFloat" x.literal
  | .pushObj id => applied "ImmObjid" id.literal
  | .pushEmptyList => "ImmEmptyList"
  | .pushLiteral l => applied "Imm" l.text
  | .appendItem => "ListAddTail"
  | .appendList => "ListAppend"
  | .indexSet => "IndexSet"
  | .wrapList => "MakeSingletonList"
  | .checkSplice => "CheckListForSplice"
  | .pushEmptyMap => "MakeMap"
  | .mapInsert => "MapInsert"
  | .keepTop => "PutTemp"
  | .pushKept => "PushTemp"
  | .binary op => op.opcode
  | .both l => applied "And" l.text
  | .either l => applied "Or" l.text
  | .not => "Not"
  | .negate => "UnaryMinus"
  | .index => "Ref"
  | .indexOver => "PushRef"
  | .load n => applied "Push" n.text
  | .store n => applied "Put" n.text
  | .range => "RangeRef"
  | .getProp => "GetProp"
  | .getPropOver => "PushGetProp"
  | .putProp => "PutProp"
  | .callMethod => "CallVerb"
  | .returnTop => "Return"
  | .returnNull => "Return0"
  | .finish => "Done"
  | .callBuiltin f => withFields "FuncCall" [("id", applied "BuiltinId" (toString f.index))]
  | .scatter t => applied "Scatter" (heightText t)
  | .pushCatch l => applied "PushCatchLabel" l.text
  | .enterTry n l => withFields "TryExcept" [("num_excepts", toString n.toNat), ("end_label", l.text)]
  | .leaveTry l => applied "EndExcept" l.text
  | .exit h l s => withFields "Exit"
      [("stack", heightText h), ("label", l.text), ("scope_depth", toString s.toNat)]

end Op

namespace Program

/-- A number at the right end of four columns. -/
def column (n : Nat) : String :=
  let digits := toString n
  String.ofList (List.replicate (4 - digits.length) ' ') ++ digits

/-- The line of one instruction. -/
def opLine (pc : Nat) (op : Op) : String :=
  column pc ++ "  " ++ op.text

/-- The lines of instructions from `pc` on.  Of several statements that start at one place, the
last is marked. -/
def opLines (pc : Nat) (spans : List (Nat × Nat)) : List Op → List String
  | [] => []
  | op :: rest =>
    let started := spans.takeWhile fun s => s.1 ≤ pc
    let mark := match started.getLast? with
      | some (_, line) => ["-- line " ++ toString line]
      | none => []
    mark ++ opLine pc op :: opLines (pc + 1) (spans.drop started.length) rest

/-- The line of a jump label. -/
def labelLine (p : Program) (slot : Nat) (l : JumpLabel) : String :=
  let place := "label " ++ toString slot ++ ": @" ++ toString l.position.toNat
  match l.owner.bind p.names.text? with
  | some owner => place ++ " (" ++ owner ++ ")"
  | none => place

/-- The lines of a listing. -/
def listing (p : Program) : List String :=
  (p.literals.toList.mapIdx fun i v => "literal " ++ toString i ++ ": " ++ v.literal)
    ++ p.labels.toList.mapIdx p.labelLine
    ++ (p.names.texts.toList.mapIdx fun i name => "var " ++ toString i ++ ": " ++ name)
    ++ opLines 0 p.spans p.ops.toList

end Program

end Lineage
