/-
  Lineage.Proofs.Script.Flaws

  What is wrong with a script that the grammar takes.

  The flaws of a script (`Flaw`) are said of its trees alone, without a word of how they
  are found: a literal out of range, a variable that `let` introduces twice, an
  assignment to something that is no place, and so on.

  Only for assignments the order of operators matters, because a run is flat.  An
  assignment binds weaker than everything that can stand before it, so it is to all of
  its run up to there, or from the last scattering assignment on (`assigned`).

  The reader finds some flaws and the generator of code the others: what the reader lets
  pass is `Readable`, and what the generator lets pass is `Proper` of trees and `Legal` of
  what was read.
-/
import Mathlib.Algebra.Group.Int.Defs
import Mathlib.Algebra.Group.Nat.Defs
import Mathlib.Data.List.DropRight
import Lineage.Builtin.Table
import Lineage.ErrorCode
import Lineage.Script.Grammar
import Lineage.Script.Names
import Lineage.Script.Tree

namespace Lineage

/-! ## The trees in a tree -/

namespace Tree

variable {ρ : Type}

mutual

/-- A tree and all trees in it, from the outside in. -/
def nodes : Tree ρ → List (Tree ρ)
  | .node r line column text ts => .node r line column text ts :: nodesIn ts

def nodesIn : List (Tree ρ) → List (Tree ρ)
  | [] => []
  | t :: ts => nodes t ++ nodesIn ts

end

end Tree

namespace Script

/-- The rules whose last part is repeated. -/
def loops : List Rule := [.forRangeStatement, .forInStatement, .whileStatement]

mutual

/-- A tree and the trees in it that are not in the body of a loop inside it. -/
def unlooped : Tree Rule → List (Tree Rule)
  | .node r line column text ts => .node r line column text ts :: unloopedIn (r ∈ loops) ts

def unloopedIn (loop : Bool) : List (Tree Rule) → List (Tree Rule)
  | [] => []
  | t :: ts => (if loop && t.rule == .statements then [] else unlooped t) ++ unloopedIn loop ts

end

/-! ## Literals -/

/-- The number that digits denote. -/
abbrev decimal (digits : List Char) : Nat := Nat.ofDigitChars 10 digits 0

/-- The number that an object is written with. -/
def objectNumber : List Char → Int
  | '#' :: '-' :: digits => -decimal digits
  | '#' :: digits => decimal digits
  | _ => 0

/-! ## Variables -/

/-- The rules that hold the name of a variable, as their first part. -/
def variableRules : List Rule :=
  [.atom, .scatterOptional, .scatterRest, .scatterTarget, .forRangeStatement, .forInStatement,
    .exceptVar, .letStatement]

/-- The variable that a tree itself names. -/
def mentioned? : Tree Rule → Option String
  | .node r _ _ _ (.node .ident _ _ name _ :: _) =>
    if r ∈ variableRules then some (Names.fold (String.ofList name)) else none
  | _ => none

/-- The variables that a script names, in lower case, as often as it names them. -/
def mentioned (trees : List (Tree Rule)) : List String :=
  (Tree.nodesIn trees).filterMap mentioned?

/-- The variable that a tree itself introduces. -/
def declared? (t : Tree Rule) : Option String :=
  if t.rule = .letStatement then mentioned? t else none

/-- The variables that `let` introduces in a script, in lower case, as often as it does. -/
def declarations (trees : List (Tree Rule)) : List String :=
  (Tree.nodesIn trees).filterMap declared?

/-! ## Assignments -/

/-- Whether an operator takes everything before it in a run, back to a scattering assignment. -/
def weak (t : Tree Rule) : Bool := t.rule = .assign || t.rule = .condExpr

/-- A postfix operator behind the run takes all of it: there is no operator before or between operands
in it, other than before a weak one. -/
def Undivided (run : List (Tree Rule)) : Prop :=
  (∀ t ∈ run, t.rule ≠ .scatterAssign) ∧
    ∀ t ∈ run.rtakeWhile (fun t => !weak t), t.rule ∉ Rules.prefixOps ∧ t.rule ∉ Rules.infixOps

/-- A run that denotes a variable, a property, or an element of something that can be assigned. -/
inductive Assignable : List (Tree Rule) → Prop
  | name (line column text line' column' text' parts) :
      Assignable [.node .atom line column text [.node .ident line' column' text' parts]]
  | parens {run} (h : Assignable run) (line column text line' column' text') :
      Assignable [.node .parenExpr line column text [.node .expr line' column' text' run]]
  | property {run t} (ht : t.rule = .prop ∨ t.rule = .propExpr) (h : Undivided run) :
      Assignable (run ++ [t])
  | element {run t} (ht : t.rule = .indexSingle) (h : Assignable run) : Assignable (run ++ [t])

/-- What an assignment behind the run is to. -/
def assigned (run : List (Tree Rule)) : List (Tree Rule) :=
  run.rtakeWhile fun t => t.rule ≠ .scatterAssign

/-! ## Flaws -/

/-- Something that is wrong with a script. -/
inductive Flaw (customErrors : Bool) (trees : List (Tree Rule)) : Prop
  /-- An integer that does not fit in 64 bits. -/
  | integer {t} (ht : t ∈ Tree.nodesIn trees) (hr : t.rule = .integer)
      (h : 2 ^ 63 ≤ decimal t.text.toList)
  /-- An object whose number does not fit in 64 bits. -/
  | object {t} (ht : t ∈ Tree.nodesIn trees) (hr : t.rule = .object)
      (h : objectNumber t.text.toList < -2 ^ 63 ∨ 2 ^ 63 ≤ objectNumber t.text.toList)
  /-- An error that is not built in, where scripts may not write others. -/
  | error {t} (ht : t ∈ Tree.nodesIn trees) (hr : t.rule = .errorCode) (hoff : customErrors = false)
      (h : ∀ e ∈ ErrorCode.builtins, e.2.1 ≠ t.text)
  /-- A `let` of a variable that is bound from the start. -/
  | bound {name} (hname : name ∈ declarations trees) (h : name ∈ GlobalName.texts)
  /-- Two `let` of one variable. -/
  | twice (h : ¬ (declarations trees).Nodup)
  /-- More than one target that takes the rest. -/
  | rests {t} (ht : t ∈ Tree.nodesIn trees) (hr : t.rule = .scatterAssign)
      (h : 1 < t.children.countP fun u => u.rule = .scatterRest)
  /-- A call of what is no built-in function. -/
  | unknown {t name} (ht : t ∈ Tree.nodesIn trees) (hr : t.rule = .builtinCall)
      (hname : t.children.head? = some name) (h : ∀ f : Builtin, f.name ≠ Names.fold name.text)
  /-- `break` or `continue` that is in no loop. -/
  | stray {t} (ht : t ∈ unloopedIn false trees)
      (h : t.rule = .breakStatement ∨ t.rule = .continueStatement)
  /-- An assignment to what cannot be assigned. -/
  | target {t before sign after} (ht : t ∈ Tree.nodesIn trees) (hr : t.rule = .expr)
      (hrun : t.children = before ++ sign :: after) (hsign : sign.rule = .assign)
      (h : ¬ Assignable (assigned before))

/-! ## Trees without flaws -/

/-- A property of a tree and all trees in it. -/
def Everywhere (P : Tree Rule → Prop) (t : Tree Rule) : Prop := ∀ u ∈ t.nodes, P u

def EverywhereIn (P : Tree Rule → Prop) (ts : List (Tree Rule)) : Prop := ∀ u ∈ Tree.nodesIn ts, P u

/-- Nothing is wrong with a tree that the reader would find. -/
def Readable (customErrors : Bool) : Tree Rule → Prop
  | .node .integer _ _ text _ => decimal text < 2 ^ 63
  | .node .object _ _ text _ => -2 ^ 63 ≤ objectNumber text ∧ objectNumber text < 2 ^ 63
  | .node .errorCode _ _ text _ =>
    customErrors = true ∨ ∃ e ∈ ErrorCode.builtins, e.2.1 = String.ofList text
  | .node .scatterAssign _ _ _ ts => (ts.countP fun t => t.rule = .scatterRest) ≤ 1
  | _ => True

/-- Every assignment in a run is to something that can be assigned. -/
def AssignsPlaces (run : List (Tree Rule)) : Prop :=
  ∀ before sign after, run = before ++ sign :: after → sign.rule = .assign → Assignable (assigned before)

/-- Nothing is wrong with an expression that the generator would find. -/
def Proper : Tree Rule → Prop
  | .node .builtinCall _ _ _ (name :: _) => ∃ f : Builtin, f.name = Names.fold name.text
  | .node .expr _ _ _ run => AssignsPlaces run
  | _ => True

section

variable {P : Tree Rule → Prop} {r : Rule} {line column : Nat} {text : List Char} {t : Tree Rule}
  {ts : List (Tree Rule)}

theorem everywhere_node : Everywhere P (.node r line column text ts) ↔
    P (.node r line column text ts) ∧ EverywhereIn P ts := by
  rw [Everywhere, Tree.nodes, List.forall_mem_cons]
  rfl

@[simp] theorem everywhereIn_nil : EverywhereIn P [] := nofun

@[simp] theorem everywhereIn_cons : EverywhereIn P (t :: ts) ↔ Everywhere P t ∧ EverywhereIn P ts := by
  rw [EverywhereIn, Tree.nodesIn, List.forall_mem_append]
  rfl

@[simp] theorem everywhereIn_append {us : List (Tree Rule)} :
    EverywhereIn P (ts ++ us) ↔ EverywhereIn P ts ∧ EverywhereIn P us := by
  induction ts with
  | nil => exact (and_iff_right everywhereIn_nil).symm
  | cons t ts ih => rw [List.cons_append, everywhereIn_cons, everywhereIn_cons, ih, and_assoc]

theorem everywhereIn_iff : EverywhereIn P ts ↔ ∀ t ∈ ts, Everywhere P t := by
  induction ts with
  | nil => exact ⟨fun _ => nofun, fun _ => everywhereIn_nil⟩
  | cons t ts ih => rw [everywhereIn_cons, List.forall_mem_cons, ih]

end

end Script

end Lineage

namespace Lineage.Script

/-- A variable, a property, or an element of something that can be assigned. -/
def Expr.Assignable : Expr → Prop
  | .index base _ => base.Assignable
  | .var _ | .prop _ _ => True
  | _ => False

mutual

/-- An expression that calls only what is built in and assigns only what can be assigned. -/
def Expr.Legal : Expr → Prop
  | .value _ | .var _ => True
  | .assign target value => target.Assignable ∧ target.Legal ∧ value.Legal
  | .binary _ left right | .and left right | .or left right => left.Legal ∧ right.Legal
  | .unary _ operand => operand.Legal
  | .prop object property => object.Legal ∧ property.Legal
  | .call function args => (Builtin.find? function).isSome = true ∧ Arg.LegalIn args
  | .verb object name args => object.Legal ∧ name.Legal ∧ Arg.LegalIn args
  | .range base first last => base.Legal ∧ first.Legal ∧ last.Legal
  | .cond condition consequence alternative =>
    condition.Legal ∧ consequence.Legal ∧ alternative.Legal
  | .index base index => base.Legal ∧ index.Legal
  | .list items => Arg.LegalIn items
  | .map entries => Expr.LegalIn entries
  | .scatter targets source => source.Legal ∧ Target.LegalIn targets

def Arg.LegalIn : List Arg → Prop
  | [] => True
  | .item e :: rest | .splice e :: rest => e.Legal ∧ Arg.LegalIn rest

def Expr.LegalIn : List (Expr × Expr) → Prop
  | [] => True
  | (key, value) :: rest => key.Legal ∧ value.Legal ∧ Expr.LegalIn rest

def Target.LegalIn : List Target → Prop
  | [] => True
  | .optional _ (some default) :: rest => default.Legal ∧ Target.LegalIn rest
  | _ :: rest => Target.LegalIn rest

end

def Codes.Legal : Codes → Prop
  | .any => True
  | .listed codes => Arg.LegalIn codes

mutual

/-- A statement whose expressions are legal, in a loop or in none. -/
def Stmt.Legal (inLoop : Bool) : Stmt → Prop
  | .mk _ _ node => node.Legal inLoop

def StmtNode.Legal (inLoop : Bool) : StmtNode → Prop
  | .branch arms otherwise => Stmt.LegalArms inLoop arms ∧
      (match otherwise with
        | some body => Stmt.LegalIn inLoop body
        | none => True)
  | .forList _ source body => source.Legal ∧ Stmt.LegalIn true body
  | .forRange _ first last body => first.Legal ∧ last.Legal ∧ Stmt.LegalIn true body
  | .while condition body => condition.Legal ∧ Stmt.LegalIn true body
  | .try body handlers => Stmt.LegalIn inLoop body ∧ Handler.LegalIn inLoop handlers
  | .break | .continue => inLoop = true
  | .return none => True
  | .return (some e) | .expr e => e.Legal

def Stmt.LegalIn (inLoop : Bool) : List Stmt → Prop
  | [] => True
  | stmt :: rest => stmt.Legal inLoop ∧ Stmt.LegalIn inLoop rest

def Stmt.LegalArms (inLoop : Bool) : List (Expr × List Stmt) → Prop
  | [] => True
  | (condition, body) :: rest =>
    condition.Legal ∧ Stmt.LegalIn inLoop body ∧ Stmt.LegalArms inLoop rest

def Handler.LegalIn (inLoop : Bool) : List Handler → Prop
  | [] => True
  | .mk _ codes body :: rest =>
    codes.Legal ∧ Stmt.LegalIn inLoop body ∧ Handler.LegalIn inLoop rest

end

/-! ## Handlers -/

/-- What a clause takes is legal. -/
def Handler.CodesLegal : Handler → Prop
  | .mk _ codes _ => codes.Legal

/-- The body of a clause is legal. -/
def Handler.BodyLegal (inLoop : Bool) : Handler → Prop
  | .mk _ _ body => Stmt.LegalIn inLoop body

theorem Handler.legalIn_iff {inLoop : Bool} {handlers : List Handler} :
    Handler.LegalIn inLoop handlers ↔
      (∀ h ∈ handlers, h.CodesLegal) ∧ ∀ h ∈ handlers, h.BodyLegal inLoop := by
  induction handlers with
  | nil => exact ⟨fun _ => ⟨nofun, nofun⟩, fun _ => trivial⟩
  | cons handler rest ih =>
    obtain ⟨name, codes, body⟩ := handler
    simp only [Handler.LegalIn, List.forall_mem_cons, ih, Handler.CodesLegal, Handler.BodyLegal]
    constructor
    · rintro ⟨hcodes, hbody, hcodes', hbody'⟩
      exact ⟨⟨hcodes, hcodes'⟩, hbody, hbody'⟩
    · rintro ⟨⟨hcodes, hcodes'⟩, hbody, hbody'⟩
      exact ⟨hcodes, hbody, hcodes', hbody'⟩

end Lineage.Script
