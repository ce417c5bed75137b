/-
  Lineage.Proofs.Program.Layout

  Where the code of a syntax tree lies in a program.

  `e.At p i j` says that the code of `e` fills the places from `i` up to, but not
  including, `j`, and that its labels lead where they should.  Each clause is the
  template of one construct, so that what holds of running it can be proved from the
  layout alone, whatever the code generator did to bring it about.

  The layout of a statement depends on its site: how many values lie on the stack when
  it starts, how many `try` bodies are open, and which loop is the innermost.
-/
import Lineage.Program.Compile

namespace Lineage

open Script

/-- The place that a label leads to. -/
def Program.target (p : Program) (l : Label) : Option Nat :=
  (p.labels[l.slot.toNat]?).map fun jump => jump.position.toNat

/-- The instructions that push a constant. -/
inductive Program.Produces (p : Program) : Op → Value → Prop where
  | null : Produces p .pushNull .null
  | int (n : Int64) : Produces p (.pushInt n) (.int n)
  | float (x : Binary64) : Produces p (.pushFloat x) (.float x)
  | obj (id : ObjectId) : Produces p (.pushObj id) (.obj id)
  | literal {l : Label} {v : Value} :
      p.literals[l.slot.toNat]? = some v → Produces p (.pushLiteral l) v

/-- Where `break` and `continue` go in a loop, with the heights of the stack there. -/
structure LoopSite where
  continueAt : Nat
  continueHeight : Nat
  breakAt : Nat
  breakHeight : Nat
  /-- How many `try` bodies surround the loop. -/
  scopes : Nat

/-- What surrounds a statement. -/
structure Site where
  /-- How many values lie on the stack when the statement starts. -/
  height : Nat
  /-- How many `try` bodies surround it. -/
  scopes : Nat
  /-- The innermost loop around it. -/
  loop : Option LoopSite

/-- The body of a loop that keeps `kept` values on the stack. -/
def Site.inLoop (s : Site) (kept top finish : Nat) : Site where
  height := s.height + kept
  scopes := s.scopes
  loop := some ⟨top, s.height + kept, finish, s.height, s.scopes⟩

/-- The body of a `try` statement. -/
def Site.inTry (s : Site) : Site := { s with scopes := s.scopes + 1 }

/-- The code that puts changed containers back. -/
def PutBackAt (p : Program) : Expr → Nat → Nat → Prop
  | .index base _, i, j => p.ops[i]? = some .indexSet ∧ PutBackAt p base (i + 1) j
  | .var name, i, j => p.ops[i]? = some (.store name) ∧ j = i + 1
  | .prop _ _, i, j => p.ops[i]? = some .putProp ∧ j = i + 1
  | _, _, _ => False

mutual

/-- The code of an expression. -/
def Expr.At (p : Program) : Expr → Nat → Nat → Prop
  | .value v, i, j => ∃ op, p.ops[i]? = some op ∧ p.Produces op v ∧ j = i + 1
  | .var name, i, j => p.ops[i]? = some (.load name) ∧ j = i + 1
  | .and left right, i, j => ∃ k done, Expr.At p left i k ∧ p.ops[k]? = some (.both done) ∧
      Expr.At p right (k + 1) j ∧ p.target done = some j
  | .or left right, i, j => ∃ k done, Expr.At p left i k ∧ p.ops[k]? = some (.either done) ∧
      Expr.At p right (k + 1) j ∧ p.target done = some j
  | .binary op left right, i, j => ∃ k m, Expr.At p left i k ∧ Expr.At p right k m ∧
      p.ops[m]? = some (.binary op) ∧ j = m + 1
  | .unary .neg operand, i, j => ∃ k, Expr.At p operand i k ∧ p.ops[k]? = some .negate ∧ j = k + 1
  | .unary .not operand, i, j => ∃ k, Expr.At p operand i k ∧ p.ops[k]? = some .not ∧ j = k + 1
  | .index base index, i, j => ∃ k m, Expr.At p base i k ∧ Expr.At p index k m ∧
      p.ops[m]? = some .index ∧ j = m + 1
  | .range base first last, i, j => ∃ k m n, Expr.At p base i k ∧ Expr.At p first k m ∧
      Expr.At p last m n ∧ p.ops[n]? = some .range ∧ j = n + 1
  | .prop object property, i, j => ∃ k m, Expr.At p object i k ∧ Expr.At p property k m ∧
      p.ops[m]? = some .getProp ∧ j = m + 1
  | .call function args, i, j => ∃ f k, Builtin.find? function = some f ∧ ArgsAt p args i k ∧
      p.ops[k]? = some (.callBuiltin f) ∧ j = k + 1
  | .verb object name args, i, j => ∃ k m n, Expr.At p object i k ∧ Expr.At p name k m ∧
      ArgsAt p args m n ∧ p.ops[n]? = some .callMethod ∧ j = n + 1
  | .cond condition consequence alternative, i, j => ∃ k m otherwise done,
      Expr.At p condition i k ∧ p.ops[k]? = some (.choose otherwise) ∧
      Expr.At p consequence (k + 1) m ∧ p.ops[m]? = some (.jump done) ∧
      p.target otherwise = some (m + 1) ∧ Expr.At p alternative (m + 1) j ∧ p.target done = some j
  | .list items, i, j => ArgsAt p items i j
  | .map entries, i, j => p.ops[i]? = some .pushEmptyMap ∧ EntriesAt p entries (i + 1) j
  | .scatter targets source, i, j => ∃ k slot table, Expr.At p source i k ∧
      p.ops[k]? = some (.scatter slot) ∧ p.scatterTables[slot.toNat]? = some table ∧
      DefaultsAt p targets table.entries (k + 1) j ∧ p.target table.done = some j
  | .assign target value, i, j => ∃ k m, LocationAt p false target i k ∧ Expr.At p value k m ∧
      if Draft.isIndexed target then
        ∃ n, p.ops[m]? = some .keepTop ∧ PutBackAt p target (m + 1) n ∧ p.ops[n]? = some .pop ∧
          p.ops[n + 1]? = some .pushKept ∧ j = n + 2
      else PutBackAt p target m j

/-- The code for what an assignment needs under the new value. -/
def LocationAt (p : Program) (inner : Bool) : Expr → Nat → Nat → Prop
  | .index base index, i, j => ∃ k m, LocationAt p true base i k ∧ Expr.At p index k m ∧
      if inner then p.ops[m]? = some .indexOver ∧ j = m + 1 else j = m
  | .var name, i, j => if inner then p.ops[i]? = some (.load name) ∧ j = i + 1 else j = i
  | .prop object property, i, j => ∃ k m, Expr.At p object i k ∧ Expr.At p property k m ∧
      if inner then p.ops[m]? = some .getPropOver ∧ j = m + 1 else j = m
  | _, _, _ => False

/-- The code of a list of arguments. -/
def ArgsAt (p : Program) : List Arg → Nat → Nat → Prop
  | [], i, j => p.ops[i]? = some .pushEmptyList ∧ j = i + 1
  | .item e :: rest, i, j => ∃ k, Expr.At p e i k ∧ p.ops[k]? = some .wrapList ∧
      MoreArgsAt p rest (k + 1) j
  | .splice e :: rest, i, j => ∃ k, Expr.At p e i k ∧ p.ops[k]? = some .checkSplice ∧
      MoreArgsAt p rest (k + 1) j

/-- The code that adds arguments to a list. -/
def MoreArgsAt (p : Program) : List Arg → Nat → Nat → Prop
  | [], i, j => j = i
  | .item e :: rest, i, j => ∃ k, Expr.At p e i k ∧ p.ops[k]? = some .appendItem ∧
      MoreArgsAt p rest (k + 1) j
  | .splice e :: rest, i, j => ∃ k, Expr.At p e i k ∧ p.ops[k]? = some .appendList ∧
      MoreArgsAt p rest (k + 1) j

/-- The code that adds entries to a map. -/
def EntriesAt (p : Program) : List (Expr × Expr) → Nat → Nat → Prop
  | [], i, j => j = i
  | (key, value) :: rest, i, j => ∃ k m, Expr.At p key i k ∧ Expr.At p value k m ∧
      p.ops[m]? = some .mapInsert ∧ EntriesAt p rest (m + 1) j

/-- The code of the defaults of a scattering assignment, and the entries of its table. -/
def DefaultsAt (p : Program) : List Target → List ScatterEntry → Nat → Nat → Prop
  | [], entries, i, j => entries = [] ∧ j = i
  | .required name :: targets, entries, i, j =>
      ∃ rest, entries = .required name :: rest ∧ DefaultsAt p targets rest i j
  | .rest name :: targets, entries, i, j =>
      ∃ rest, entries = .rest name :: rest ∧ DefaultsAt p targets rest i j
  | .optional name none :: targets, entries, i, j =>
      ∃ rest, entries = .optional name none :: rest ∧ DefaultsAt p targets rest i j
  | .optional name (some default) :: targets, entries, i, j => ∃ label rest k,
      entries = .optional name (some label) :: rest ∧ p.target label = some i ∧
      Expr.At p default i k ∧ p.ops[k]? = some (.store name) ∧ p.ops[k + 1]? = some .pop ∧
      DefaultsAt p targets rest (k + 2) j

end

/-! ## Statements -/

/-- The code of what a clause takes. -/
def Codes.At (p : Program) : Codes → Nat → Nat → Prop
  | .any, i, j => p.ops[i]? = some (.pushInt 0) ∧ j = i + 1
  | .listed codes, i, j => ArgsAt p codes i j

/-- The code that prepares the handlers of a `try` statement. -/
def CatchesAt (p : Program) : List Handler → List Label → Nat → Nat → Prop
  | [], labels, i, j => labels = [] ∧ j = i
  | .mk _ codes _ :: rest, labels, i, j => ∃ label more k, labels = label :: more ∧
      Codes.At p codes i k ∧ p.ops[k]? = some (.pushCatch label) ∧ CatchesAt p rest more (k + 1) j

/-- The code that takes the error off the stack when a handler starts. -/
def ReceiveAt (p : Program) : Option Name → Nat → Nat → Prop
  | none, i, j => p.ops[i]? = some .pop ∧ j = i + 1
  | some name, i, j => p.ops[i]? = some (.store name) ∧ p.ops[i + 1]? = some .pop ∧ j = i + 2

mutual

/-- The code of a statement. -/
def Stmt.At (p : Program) (s : Site) : Stmt → Nat → Nat → Prop
  | .mk _ _ node, i, j => StmtNode.At p s node i j

def StmtNode.At (p : Program) (s : Site) : StmtNode → Nat → Nat → Prop
  | .branch arms otherwise, i, j => ∃ k finish, ArmsAt p s finish arms i k ∧
      (match otherwise with
        | some body => BlockAt p s body k j
        | none => j = k) ∧
      p.target finish = some j
  | .forList name source body, i, j => ∃ k m top finish, Expr.At p source i k ∧
      p.ops[k]? = some (.pushInt 0) ∧ p.ops[k + 1]? = some (.forList name finish) ∧
      BlockAt p (s.inLoop 2 (k + 1) j) body (k + 2) m ∧ p.ops[m]? = some (.jump top) ∧
      p.target top = some (k + 1) ∧ p.target finish = some j ∧ j = m + 1
  | .forRange name first last body, i, j => ∃ h k m top finish, Expr.At p first i h ∧
      Expr.At p last h k ∧ p.ops[k]? = some (.forRange name finish) ∧
      BlockAt p (s.inLoop 2 k j) body (k + 1) m ∧ p.ops[m]? = some (.jump top) ∧
      p.target top = some k ∧ p.target finish = some j ∧ j = m + 1
  | .while condition body, i, j => ∃ k m top finish, Expr.At p condition i k ∧
      p.ops[k]? = some (.loopWhile finish) ∧ BlockAt p (s.inLoop 0 i j) body (k + 1) m ∧
      p.ops[m]? = some (.jump top) ∧ p.target top = some i ∧ p.target finish = some j ∧ j = m + 1
  | .try body handlers, i, j => ∃ k m labels count finish, CatchesAt p handlers labels i k ∧
      p.ops[k]? = some (.enterTry count finish) ∧ count.toNat = handlers.length ∧
      BlockAt p s.inTry body (k + 1) m ∧ p.ops[m]? = some (.leaveTry finish) ∧
      HandlersAt p s finish handlers labels (m + 1) j ∧ p.target finish = some j
  | .break, i, j => ∃ loop height label scopes, s.loop = some loop ∧
      p.ops[i]? = some (.exit height label scopes) ∧ height.toNat = loop.breakHeight ∧
      p.target label = some loop.breakAt ∧ scopes.toNat = loop.scopes ∧ j = i + 1
  | .continue, i, j => ∃ loop height label scopes, s.loop = some loop ∧
      p.ops[i]? = some (.exit height label scopes) ∧ height.toNat = loop.continueHeight ∧
      p.target label = some loop.continueAt ∧ scopes.toNat = loop.scopes ∧ j = i + 1
  | .return (some e), i, j => ∃ k, Expr.At p e i k ∧ p.ops[k]? = some .returnTop ∧ j = k + 1
  | .return none, i, j => p.ops[i]? = some .returnNull ∧ j = i + 1
  | .expr e, i, j => ∃ k, Expr.At p e i k ∧ p.ops[k]? = some .pop ∧ j = k + 1

/-- The code of statements in a row. -/
def BlockAt (p : Program) (s : Site) : List Stmt → Nat → Nat → Prop
  | [], i, j => j = i
  | stmt :: rest, i, j => ∃ k, Stmt.At p s stmt i k ∧ BlockAt p s rest k j

/-- The code of the conditions of a branch and what they guard. -/
def ArmsAt (p : Program) (s : Site) (finish : Label) : List (Expr × List Stmt) → Nat → Nat → Prop
  | [], i, j => j = i
  | (condition, body) :: rest, i, j => ∃ k m next, Expr.At p condition i k ∧
      p.ops[k]? = some (.branch next) ∧ BlockAt p s body (k + 1) m ∧
      p.ops[m]? = some (.jump finish) ∧ p.target next = some (m + 1) ∧
      ArmsAt p s finish rest (m + 1) j

/-- The code of the bodies of handlers; the last one runs on to the end of the statement. -/
def HandlersAt (p : Program) (s : Site) (finish : Label) :
    List Handler → List Label → Nat → Nat → Prop
  | [], labels, i, j => labels = [] ∧ j = i
  | .mk name _ body :: rest, labels, i, j => ∃ label more k m, labels = label :: more ∧
      p.target label = some i ∧ ReceiveAt p name i k ∧ BlockAt p s body k m ∧
      (if rest.isEmpty then more = [] ∧ j = m
      else p.ops[m]? = some (.jump finish) ∧ HandlersAt p s finish rest more (m + 1) j)

end

/-- A program is the code of a script. -/
def Program.CodeOf (p : Program) (statements : List Stmt) : Prop :=
  ∃ n, BlockAt p ⟨0, 0, none⟩ statements 0 n ∧ p.ops[n]? = some .finish

end Lineage
