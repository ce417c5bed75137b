/-
  Lineage.Proofs.Script.Parts

  The constants and variables of a syntax tree.

  `All C N` says that every constant in a tree satisfies `C` and every variable in it
  `N`.  A tree is sound (`SyntaxTree.Sound`) when all its variables have a slot in its
  table of names, and constants that equal each other as scripts see it are the same.
  The second matters because equal constants share one slot of a program, while two
  errors are equal as soon as they have one code, whatever their messages.
-/
import Lineage.Script.Tree
import Lineage.Value.Order

namespace Lineage.Script

mutual

def Expr.All (C : Value → Prop) (N : Name → Prop) : Expr → Prop
  | .assign target value => Expr.All C N target ∧ Expr.All C N value
  | .value v => C v
  | .var name => N name
  | .binary _ left right | .and left right | .or left right =>
      Expr.All C N left ∧ Expr.All C N right
  | .unary _ operand => Expr.All C N operand
  | .prop object property => Expr.All C N object ∧ Expr.All C N property
  | .call _ args => Arg.AllIn C N args
  | .verb object name args => Expr.All C N object ∧ Expr.All C N name ∧ Arg.AllIn C N args
  | .range base first last => Expr.All C N base ∧ Expr.All C N first ∧ Expr.All C N last
  | .cond condition consequence alternative =>
      Expr.All C N condition ∧ Expr.All C N consequence ∧ Expr.All C N alternative
  | .index base index => Expr.All C N base ∧ Expr.All C N index
  | .list items => Arg.AllIn C N items
  | .map entries => Expr.AllIn C N entries
  | .scatter targets source => Target.AllIn C N targets ∧ Expr.All C N source

def Arg.AllIn (C : Value → Prop) (N : Name → Prop) : List Arg → Prop
  | [] => True
  | .item e :: rest | .splice e :: rest => Expr.All C N e ∧ Arg.AllIn C N rest

def Expr.AllIn (C : Value → Prop) (N : Name → Prop) : List (Expr × Expr) → Prop
  | [] => True
  | (key, value) :: rest => Expr.All C N key ∧ Expr.All C N value ∧ Expr.AllIn C N rest

def Target.AllIn (C : Value → Prop) (N : Name → Prop) : List Target → Prop
  | [] => True
  | .required name :: rest | .rest name :: rest | .optional name none :: rest =>
      N name ∧ Target.AllIn C N rest
  | .optional name (some default) :: rest =>
      N name ∧ Expr.All C N default ∧ Target.AllIn C N rest

end

def Codes.All (C : Value → Prop) (N : Name → Prop) : Codes → Prop
  | .any => True
  | .listed codes => Arg.AllIn C N codes

mutual

def Stmt.All (C : Value → Prop) (N : Name → Prop) : Stmt → Prop
  | .mk _ _ node => StmtNode.All C N node

def StmtNode.All (C : Value → Prop) (N : Name → Prop) : StmtNode → Prop
  | .branch arms otherwise => Stmt.AllInArms C N arms ∧
      (match otherwise with
        | some body => Stmt.AllIn C N body
        | none => True)
  | .forList name source body => N name ∧ Expr.All C N source ∧ Stmt.AllIn C N body
  | .forRange name first last body =>
      N name ∧ Expr.All C N first ∧ Expr.All C N last ∧ Stmt.AllIn C N body
  | .while condition body => Expr.All C N condition ∧ Stmt.AllIn C N body
  | .try body handlers => Stmt.AllIn C N body ∧ Handler.AllIn C N handlers
  | .break | .continue | .return none => True
  | .return (some e) | .expr e => Expr.All C N e

def Stmt.AllIn (C : Value → Prop) (N : Name → Prop) : List Stmt → Prop
  | [] => True
  | stmt :: rest => Stmt.All C N stmt ∧ Stmt.AllIn C N rest

def Stmt.AllInArms (C : Value → Prop) (N : Name → Prop) : List (Expr × List Stmt) → Prop
  | [] => True
  | (condition, body) :: rest =>
      Expr.All C N condition ∧ Stmt.AllIn C N body ∧ Stmt.AllInArms C N rest

def Handler.AllIn (C : Value → Prop) (N : Name → Prop) : List Handler → Prop
  | [] => True
  | .mk name codes body :: rest => (∀ n, name = some n → N n) ∧ Codes.All C N codes ∧
      Stmt.AllIn C N body ∧ Handler.AllIn C N rest

end

/-! ## What follows for every part -/

section Imp

variable {C C' : Value → Prop} {N N' : Name → Prop}

mutual

theorem Expr.All.imp (hC : ∀ v, C v → C' v) (hN : ∀ n, N n → N' n) :
    ∀ e : Expr, e.All C N → e.All C' N'
  | .assign target value, h => ⟨Expr.All.imp hC hN target h.1, Expr.All.imp hC hN value h.2⟩
  | .value v, h => hC v h
  | .var name, h => hN name h
  | .binary _ left right, h | .and left right, h | .or left right, h =>
    ⟨Expr.All.imp hC hN left h.1, Expr.All.imp hC hN right h.2⟩
  | .unary _ operand, h => Expr.All.imp hC hN operand h
  | .prop object property, h => ⟨Expr.All.imp hC hN object h.1, Expr.All.imp hC hN property h.2⟩
  | .call _ args, h => Arg.AllIn.imp hC hN args h
  | .verb object name args, h =>
    ⟨Expr.All.imp hC hN object h.1, Expr.All.imp hC hN name h.2.1, Arg.AllIn.imp hC hN args h.2.2⟩
  | .range base first last, h =>
    ⟨Expr.All.imp hC hN base h.1, Expr.All.imp hC hN first h.2.1, Expr.All.imp hC hN last h.2.2⟩
  | .cond condition consequence alternative, h =>
    ⟨Expr.All.imp hC hN condition h.1, Expr.All.imp hC hN consequence h.2.1,
      Expr.All.imp hC hN alternative h.2.2⟩
  | .index base index, h => ⟨Expr.All.imp hC hN base h.1, Expr.All.imp hC hN index h.2⟩
  | .list items, h => Arg.AllIn.imp hC hN items h
  | .map entries, h => Expr.AllIn.imp hC hN entries h
  | .scatter targets source, h =>
    ⟨Target.AllIn.imp hC hN targets h.1, Expr.All.imp hC hN source h.2⟩

theorem Arg.AllIn.imp (hC : ∀ v, C v → C' v) (hN : ∀ n, N n → N' n) :
    ∀ args : List Arg, Arg.AllIn C N args → Arg.AllIn C' N' args
  | [], _ => trivial
  | .item e :: rest, h | .splice e :: rest, h =>
    ⟨Expr.All.imp hC hN e h.1, Arg.AllIn.imp hC hN rest h.2⟩

theorem Expr.AllIn.imp (hC : ∀ v, C v → C' v) (hN : ∀ n, N n → N' n) :
    ∀ entries : List (Expr × Expr), Expr.AllIn C N entries → Expr.AllIn C' N' entries
  | [], _ => trivial
  | (key, value) :: rest, h =>
    ⟨Expr.All.imp hC hN key h.1, Expr.All.imp hC hN value h.2.1, Expr.AllIn.imp hC hN rest h.2.2⟩

theorem Target.AllIn.imp (hC : ∀ v, C v → C' v) (hN : ∀ n, N n → N' n) :
    ∀ targets : List Target, Target.AllIn C N targets → Target.AllIn C' N' targets
  | [], _ => trivial
  | .required name :: rest, h | .rest name :: rest, h | .optional name none :: rest, h =>
    ⟨hN name h.1, Target.AllIn.imp hC hN rest h.2⟩
  | .optional name (some default) :: rest, h =>
    ⟨hN name h.1, Expr.All.imp hC hN default h.2.1, Target.AllIn.imp hC hN rest h.2.2⟩

end

theorem Codes.All.imp (hC : ∀ v, C v → C' v) (hN : ∀ n, N n → N' n) :
    ∀ codes : Codes, codes.All C N → codes.All C' N'
  | .any, _ => trivial
  | .listed codes, h => Arg.AllIn.imp hC hN codes h

mutual

theorem Stmt.All.imp (hC : ∀ v, C v → C' v) (hN : ∀ n, N n → N' n) :
    ∀ s : Stmt, s.All C N → s.All C' N'
  | .mk _ _ node, h => StmtNode.All.imp hC hN node h

theorem StmtNode.All.imp (hC : ∀ v, C v → C' v) (hN : ∀ n, N n → N' n) :
    ∀ node : StmtNode, node.All C N → node.All C' N'
  | .branch arms none, h => ⟨Stmt.AllInArms.imp hC hN arms h.1, trivial⟩
  | .branch arms (some body), h =>
    ⟨Stmt.AllInArms.imp hC hN arms h.1, Stmt.AllIn.imp hC hN body h.2⟩
  | .forList name source body, h =>
    ⟨hN name h.1, Expr.All.imp hC hN source h.2.1, Stmt.AllIn.imp hC hN body h.2.2⟩
  | .forRange name first last body, h =>
    ⟨hN name h.1, Expr.All.imp hC hN first h.2.1, Expr.All.imp hC hN last h.2.2.1,
      Stmt.AllIn.imp hC hN body h.2.2.2⟩
  | .while condition body, h => ⟨Expr.All.imp hC hN condition h.1, Stmt.AllIn.imp hC hN body h.2⟩
  | .try body handlers, h => ⟨Stmt.AllIn.imp hC hN body h.1, Handler.AllIn.imp hC hN handlers h.2⟩
  | .break, _ | .continue, _ | .return none, _ => trivial
  | .return (some e), h | .expr e, h => Expr.All.imp hC hN e h

theorem Stmt.AllIn.imp (hC : ∀ v, C v → C' v) (hN : ∀ n, N n → N' n) :
    ∀ stmts : List Stmt, Stmt.AllIn C N stmts → Stmt.AllIn C' N' stmts
  | [], _ => trivial
  | stmt :: rest, h => ⟨Stmt.All.imp hC hN stmt h.1, Stmt.AllIn.imp hC hN rest h.2⟩

theorem Stmt.AllInArms.imp (hC : ∀ v, C v → C' v) (hN : ∀ n, N n → N' n) :
    ∀ arms : List (Expr × List Stmt), Stmt.AllInArms C N arms → Stmt.AllInArms C' N' arms
  | [], _ => trivial
  | (condition, body) :: rest, h =>
    ⟨Expr.All.imp hC hN condition h.1, Stmt.AllIn.imp hC hN body h.2.1,
      Stmt.AllInArms.imp hC hN rest h.2.2⟩

theorem Handler.AllIn.imp (hC : ∀ v, C v → C' v) (hN : ∀ n, N n → N' n) :
    ∀ handlers : List Handler, Handler.AllIn C N handlers → Handler.AllIn C' N' handlers
  | [], _ => trivial
  | .mk _ codes body :: rest, h =>
    ⟨fun n hn => hN n (h.1 n hn), Codes.All.imp hC hN codes h.2.1, Stmt.AllIn.imp hC hN body h.2.2.1,
      Handler.AllIn.imp hC hN rest h.2.2.2⟩

end

end Imp

/-! ## Sound trees -/

/-- Constants of a class are told apart by the equality of scripts. -/
def Distinct (C : Value → Prop) : Prop :=
  ∀ u v, C u → C v → u.equals v = true → u = v

/-- A tree whose variables have slots and whose constants are told apart. -/
def SyntaxTree.Sound (tree : SyntaxTree) : Prop :=
  ∃ C, Distinct C ∧
    Stmt.AllIn C (fun name => name.slot.toNat < tree.names.width) tree.statements

end Lineage.Script
