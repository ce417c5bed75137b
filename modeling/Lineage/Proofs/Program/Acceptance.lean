/-
  Lineage.Proofs.Program.Acceptance

  The generator makes code for the legal trees and for no others.

  Nothing else that a part of the generator does with a draft matters here than whether it
  is in a loop: `Accepts` says of a part when it comes to a result.
-/
import Lineage.Proofs.Program.StatementPlacement
import Lineage.Proofs.Script.Flaws

namespace Lineage

open Script

namespace Draft

/-- A part of the generator comes to a result exactly if `P` holds of whether the draft is in a loop,
and is in the same loops after it. -/
def Accepts {α : Type} (x : Drafting α) (P : Bool → Prop) : Prop :=
  ∀ d, match x d with
    | .ok (_, d') => P (!d.loops.isEmpty) ∧ d'.loops = d.loops
    | .error _ => ¬ P (!d.loops.isEmpty)

/-- A part that always comes to a result. -/
abbrev Passes {α : Type} (x : Drafting α) : Prop := Accepts x fun _ => True

section

variable {α β : Type} {x : Drafting α} {f : α → Drafting β} {P Q : Bool → Prop}

theorem Accepts.iff (hx : Accepts x P) (h : ∀ b, P b ↔ Q b) : Accepts x Q := by
  obtain rfl : P = Q := funext fun b => propext (h b)
  exact hx

/-- One part after another, which matters only for what the first may come to. -/
theorem Accepts.bind_of (hx : Accepts x P)
    (hf : ∀ a, (∃ d d', x d = .ok (a, d')) → Accepts (f a) Q) :
    Accepts (x >>= f) fun b => P b ∧ Q b := by
  intro d
  have hbind : (x >>= f) d = (x d).bind fun s => f s.1 s.2 := rfl
  have hfirst := hx d
  rw [hbind]
  cases hrun : x d with
  | error e =>
    rw [hrun] at hfirst
    exact fun h => hfirst h.1
  | ok s =>
    obtain ⟨a, d₁⟩ := s
    rw [hrun] at hfirst
    obtain ⟨hP, hloops⟩ := hfirst
    have hsecond := hf a ⟨d, d₁, hrun⟩ d₁
    rw [hloops] at hsecond
    simp only [Except.bind]
    cases hrun' : f a d₁ with
    | error e =>
      rw [hrun'] at hsecond
      exact fun h => hsecond h.2
    | ok s =>
      rw [hrun'] at hsecond
      exact ⟨⟨hP, hsecond.1⟩, hsecond.2⟩

theorem Accepts.bind (hx : Accepts x P) (hf : ∀ a, Accepts (f a) Q) :
    Accepts (x >>= f) fun b => P b ∧ Q b :=
  hx.bind_of fun a _ => hf a

theorem Passes.then (hx : Passes x) (hf : ∀ a, Accepts (f a) P) : Accepts (x >>= f) P :=
  (hx.bind hf).iff fun _ => iff_of_eq (true_and _)

theorem Accepts.passing (hx : Accepts x P) (hf : ∀ a, Passes (f a)) : Accepts (x >>= f) P :=
  (hx.bind hf).iff fun _ => iff_of_eq (and_true _)

theorem pure_passes (a : α) : Passes (pure a : Drafting α) := fun _ => ⟨trivial, rfl⟩

theorem throw_accepts {e : CompileError} : Accepts (throw e : Drafting α) fun _ => False :=
  fun _ h => h

theorem modify_passes {set : Draft → Draft} (h : ∀ d, (set d).loops = d.loops) :
    Passes (modify set) := fun d => ⟨trivial, h d⟩

end

/-! ## Parts that always come to a result -/

theorem emit_passes (op : Op) : Passes (emit op) := modify_passes fun _ => rfl

theorem adjust_passes (change : Nat → Nat) : Passes (adjust change) := modify_passes fun _ => rfl

theorem emitPush_passes (op : Op) : Passes (emitPush op) :=
  (emit_passes op).then fun _ => adjust_passes _

theorem emitTake_passes (op : Op) (n : Nat) : Passes (emitTake op n) :=
  (emit_passes op).then fun _ => adjust_passes _

theorem newLabel_passes (owner : Option Name) : Passes (newLabel owner) := fun _ => ⟨trivial, rfl⟩

theorem place_passes (l : Label) : Passes (place l) := modify_passes fun _ => rfl

theorem startStatement_passes (line : Nat) : Passes (startStatement line) := modify_passes fun _ => rfl

theorem scatterTable_passes (t : ScatterTable) : Passes (scatterTable t) := fun _ => ⟨trivial, rfl⟩

theorem literal_passes (v : Value) : Passes (literal v) := by
  intro d
  rw [literal_run]
  cases d.literals.findIdx? (·.equals v) with
  | none => exact ⟨trivial, rfl⟩
  | some i => exact ⟨trivial, rfl⟩

theorem constant_passes (v : Value) : Passes (constant v) := by
  have pooled : Passes (literal v >>= fun slot => emitPush (.pushLiteral slot)) :=
    (literal_passes v).then fun _ => emitPush_passes _
  cases v with
  | null | obj id | int n | float x => exact emitPush_passes _
  | _ => exact pooled

theorem scatterEntries_passes (targets : List Target) : Passes (scatterEntries targets) := by
  have cons (entry : ScatterEntry) {rest : List Target} (h : Passes (scatterEntries rest)) :
      Passes (scatterEntries rest >>= fun more => Pure.pure (entry :: more)) :=
    h.then fun _ => pure_passes _
  induction targets with
  | nil => exact pure_passes _
  | cons target rest ih =>
    cases target with
    | required name => simpa only [scatterEntries, pure_bind] using cons _ ih
    | rest name => simpa only [scatterEntries, pure_bind] using cons _ ih
    | optional name default =>
      cases default with
      | none => simpa only [scatterEntries, pure_bind] using cons _ ih
      | some e =>
        simp only [scatterEntries, pure_bind]
        exact (newLabel_passes none).then fun label => cons _ ih

/-! ## Expressions -/

theorem putBack_accepts (target : Expr) : Accepts (putBack target) fun _ => target.Assignable := by
  cases target with
  | index base index => exact (emitTake_passes .indexSet 2).then fun _ => putBack_accepts base
  | var name => exact emit_passes _
  | prop object property => exact emitTake_passes _ 2
  | _ => exact throw_accepts

mutual

theorem expr_accepts (e : Expr) : Accepts (expr e) fun _ => e.Legal := by
  cases e with
  | value v =>
    simp only [expr, Expr.Legal]
    exact constant_passes v
  | var name =>
    simp only [expr, Expr.Legal]
    exact emitPush_passes _
  | and left right | or left right =>
    simp only [expr, Expr.Legal]
    exact (expr_accepts left).bind fun _ => (newLabel_passes none).then fun done =>
      (emitTake_passes _ 1).then fun _ => (expr_accepts right).passing fun _ => place_passes done
  | binary op left right | index left right | prop left right =>
    simp only [expr, Expr.Legal]
    exact (expr_accepts left).bind fun _ => (expr_accepts right).passing fun _ => emitTake_passes _ 1
  | unary op operand =>
    cases op with
    | neg | not =>
      simp only [expr, Expr.Legal]
      exact (expr_accepts operand).passing fun _ => emit_passes _
  | range base first last =>
    simp only [expr, Expr.Legal]
    exact (expr_accepts base).bind fun _ => (expr_accepts first).bind fun _ =>
      (expr_accepts last).passing fun _ => emitTake_passes _ 2
  | call function args =>
    simp only [expr, Expr.Legal]
    cases Builtin.find? function with
    | none => exact throw_accepts.iff fun _ => by simp
    | some f =>
      refine ((arguments_accepts args).passing fun _ => emit_passes _).iff fun _ => ?_
      simp
  | verb object name args =>
    simp only [expr, Expr.Legal]
    exact (expr_accepts object).bind fun _ => (expr_accepts name).bind fun _ =>
      (arguments_accepts args).passing fun _ => emitTake_passes _ 2
  | cond condition consequence alternative =>
    simp only [expr, Expr.Legal]
    exact (expr_accepts condition).bind fun _ => (newLabel_passes none).then fun otherwise =>
      (emitTake_passes _ 1).then fun _ => (expr_accepts consequence).bind fun _ =>
      (newLabel_passes none).then fun done => (emitTake_passes _ 1).then fun _ =>
      (place_passes otherwise).then fun _ => (expr_accepts alternative).passing fun _ =>
      place_passes done
  | list items =>
    simp only [expr, Expr.Legal]
    exact arguments_accepts items
  | map items =>
    simp only [expr, Expr.Legal]
    exact (emitPush_passes _).then fun _ => entries_accepts items
  | scatter targets source =>
    simp only [expr, Expr.Legal]
    refine (expr_accepts source).bind fun _ =>
      ((scatterEntries_passes targets).bind_of fun table htable =>
        (newLabel_passes none).then fun done => (scatterTable_passes ⟨table, done⟩).then fun slot =>
        (emit_passes _).then fun _ =>
        (defaults_accepts targets table (scatterEntries_fills htable)).passing fun _ =>
        place_passes done).iff fun _ => iff_of_eq (true_and _)
  | assign target value =>
    simp only [expr, Expr.Legal]
    have hlocation := location_accepts false target
    have hvalue := expr_accepts value
    have hback := putBack_accepts target
    have hlegal : ∀ _ : Bool, (target.Assignable ∧ target.Legal) ∧ value.Legal ∧ target.Assignable ↔
        target.Assignable ∧ target.Legal ∧ value.Legal :=
      fun _ => ⟨fun ⟨⟨ha, ht⟩, hv, _⟩ => ⟨ha, ht, hv⟩,
        fun ⟨ha, ht, hv⟩ => ⟨⟨ha, ht⟩, hv, ha⟩⟩
    by_cases hi : isIndexed target = true
    · simp only [hi, if_true]
      exact (hlocation.bind fun _ => hvalue.bind fun _ => (emit_passes _).then fun _ =>
        hback.passing fun _ => (emit_passes _).then fun _ => emit_passes _).iff hlegal
    · simp only [hi, Bool.false_eq_true, if_false]
      exact (hlocation.bind fun _ => hvalue.bind fun _ => hback.passing fun _ => pure_passes _).iff hlegal

theorem location_accepts (inner : Bool) (target : Expr) :
    Accepts (location inner target) fun _ => target.Assignable ∧ target.Legal := by
  cases target with
  | index base index =>
    simp only [location, Expr.Assignable, Expr.Legal]
    refine ((location_accepts true base).bind fun _ =>
      (expr_accepts index).passing fun _ => ?_).iff fun _ => and_assoc
    cases inner with
    | false => exact pure_passes _
    | true => exact emitPush_passes _
  | var name =>
    simp only [location, Expr.Assignable, Expr.Legal, and_self]
    cases inner with
    | false => exact pure_passes _
    | true => exact emitPush_passes _
  | prop object property =>
    simp only [location, Expr.Assignable, Expr.Legal, true_and]
    refine (expr_accepts object).bind fun _ => (expr_accepts property).passing fun _ => ?_
    cases inner with
    | false => exact pure_passes _
    | true => exact emitPush_passes _
  | _ =>
    simp only [location, Expr.Assignable, false_and]
    exact throw_accepts

theorem arguments_accepts (args : List Arg) : Accepts (arguments args) fun _ => Arg.LegalIn args := by
  match args with
  | [] =>
    simp only [arguments, Arg.LegalIn]
    exact emitPush_passes _
  | .item e :: rest | .splice e :: rest =>
    simp only [arguments, Arg.LegalIn]
    exact (expr_accepts e).bind fun _ => (emit_passes _).then fun _ => moreArguments_accepts rest

theorem moreArguments_accepts (args : List Arg) :
    Accepts (moreArguments args) fun _ => Arg.LegalIn args := by
  match args with
  | [] =>
    simp only [moreArguments, Arg.LegalIn]
    exact pure_passes _
  | .item e :: rest | .splice e :: rest =>
    simp only [moreArguments, Arg.LegalIn]
    exact (expr_accepts e).bind fun _ => (emitTake_passes _ 1).then fun _ => moreArguments_accepts rest

theorem entries_accepts (items : List (Expr × Expr)) :
    Accepts (entries items) fun _ => Expr.LegalIn items := by
  match items with
  | [] =>
    simp only [entries, Expr.LegalIn]
    exact pure_passes _
  | (key, value) :: rest =>
    simp only [entries, Expr.LegalIn]
    exact (expr_accepts key).bind fun _ => (expr_accepts value).bind fun _ =>
      (emitTake_passes _ 2).then fun _ => entries_accepts rest

theorem defaults_accepts (targets : List Target) (table : List ScatterEntry)
    (hfills : Fills targets table) :
    Accepts (defaults targets table) fun _ => Target.LegalIn targets := by
  match targets with
  | [] =>
    obtain rfl := hfills
    simp only [defaults, Target.LegalIn]
    exact pure_passes _
  | .required name :: targets | .rest name :: targets | .optional name none :: targets =>
    obtain ⟨rest, rfl, hrest⟩ := hfills
    simp only [defaults, Target.LegalIn]
    exact defaults_accepts targets rest hrest
  | .optional name (some e) :: targets =>
    obtain ⟨label, rest, rfl, hrest⟩ := hfills
    simp only [defaults, Target.LegalIn]
    exact (place_passes label).then fun _ => (expr_accepts e).bind fun _ =>
      (emit_passes _).then fun _ => (emitTake_passes _ 1).then fun _ =>
      defaults_accepts targets rest hrest

end

/-! ## Statements -/

theorem leaveLoop_accepts (word : String) (height : LoopExits → Nat) (target : LoopExits → Label) :
    Accepts (leaveLoop word height target) fun inLoop => inLoop = true := by
  intro d
  rw [leaveLoop_eq]
  cases hloops : d.loops with
  | nil =>
    intro h
    cases h
  | cons exits rest => exact ⟨rfl, hloops⟩

/-- The body of a loop is in a loop, and what comes after it is where the loop was. -/
theorem loopBody_accepts {top finish : Label} {kept : Nat} {body : Drafting Unit} {P : Bool → Prop}
    (h : Accepts body P) : Accepts (loopBody top finish kept body) fun _ => P true := by
  intro d
  have hinside := h
    { d with loops := ⟨top, d.height, finish, d.height - kept, d.scopes⟩ :: d.loops }
  let leave : Drafting Unit := do
    emit (.jump top)
    modify fun d => { d with loops := d.loops.tail }
    place finish
    adjust (· - kept)
  have hrun : loopBody top finish kept body d =
      (body { d with loops := ⟨top, d.height, finish, d.height - kept, d.scopes⟩ :: d.loops }).bind
        fun s => leave s.2 := rfl
  rw [hrun]
  cases hbody : body _ with
  | error e =>
    rw [hbody] at hinside
    exact hinside
  | ok s =>
    rw [hbody] at hinside
    exact ⟨hinside.1, congrArg List.tail hinside.2⟩

theorem catches_accepts (handlers : List Handler) :
    Accepts (catches handlers) fun _ => ∀ h ∈ handlers, h.CodesLegal := by
  induction handlers with
  | nil =>
    simp only [catches, List.not_mem_nil, false_implies, implies_true]
    exact pure_passes _
  | cons handler rest ih =>
    obtain ⟨name, codes, body⟩ := handler
    have htail (handler : Label) : Accepts (do
        emit (.pushCatch handler)
        let more ← catches rest
        Pure.pure (handler :: more)) fun _ => ∀ h ∈ rest, h.CodesLegal :=
      (emit_passes _).then fun _ => ih.passing fun _ => pure_passes _
    simp only [List.forall_mem_cons]
    cases codes with
    | any =>
      simp only [catches, Handler.CodesLegal, Codes.Legal, true_and]
      exact (emitPush_passes _).then fun _ => (newLabel_passes none).then htail
    | listed codes =>
      simp only [catches, Handler.CodesLegal, Codes.Legal]
      exact (arguments_accepts codes).bind fun _ => (newLabel_passes none).then htail

/-- Taking the error off the stack always comes to a result. -/
theorem receive_accepts (name : Option Name) {k : Drafting Unit} {P : Bool → Prop} (h : Accepts k P) :
    Accepts (do
      adjust (· + 1)
      if let some name := name then emit (.store name)
      emitTake .pop 1
      k) P := by
  cases name with
  | none => exact (adjust_passes _).then fun _ => (emitTake_passes _ 1).then fun _ => h
  | some name =>
    exact (adjust_passes _).then fun _ => (emit_passes _).then fun _ =>
      (emitTake_passes _ 1).then fun _ => h

mutual

theorem statement_accepts (stmt : Stmt) : Accepts (statement stmt) fun inLoop => stmt.Legal inLoop := by
  obtain ⟨line, column, node⟩ := stmt
  simp only [statement, Stmt.Legal]
  exact (startStatement_passes line).then fun _ => statementNode_accepts node

theorem statementNode_accepts (node : StmtNode) :
    Accepts (statementNode node) fun inLoop => node.Legal inLoop := by
  cases node with
  | branch branches otherwise =>
    cases otherwise with
    | none =>
      simp only [statementNode, StmtNode.Legal]
      exact (newLabel_passes none).then fun finish =>
        (arms_accepts finish branches).bind fun _ => place_passes finish
    | some body =>
      simp only [statementNode, StmtNode.Legal]
      exact (newLabel_passes none).then fun finish => (arms_accepts finish branches).bind fun _ =>
        (block_accepts body).passing fun _ => place_passes finish
  | forList name source body =>
    simp only [statementNode, StmtNode.Legal]
    exact (expr_accepts source).bind fun _ => (emitPush_passes _).then fun _ =>
      (newLabel_passes _).then fun top => (newLabel_passes _).then fun finish =>
      (place_passes top).then fun _ => (emit_passes _).then fun _ =>
      loopBody_accepts (block_accepts body)
  | forRange name first last body =>
    simp only [statementNode, StmtNode.Legal]
    exact (expr_accepts first).bind fun _ => (expr_accepts last).bind fun _ =>
      (newLabel_passes _).then fun top => (newLabel_passes _).then fun finish =>
      (place_passes top).then fun _ => (emit_passes _).then fun _ =>
      loopBody_accepts (block_accepts body)
  | «while» condition body =>
    simp only [statementNode, StmtNode.Legal]
    exact (newLabel_passes none).then fun top => (newLabel_passes none).then fun finish =>
      (place_passes top).then fun _ => (expr_accepts condition).bind fun _ =>
      (emitTake_passes _ 1).then fun _ => loopBody_accepts (block_accepts body)
  | «try» body handlers =>
    simp only [statementNode, StmtNode.Legal]
    refine ((catches_accepts handlers).bind_of fun labels hlabels =>
      (adjust_passes _).then fun _ => (newLabel_passes none).then fun finish =>
      (emit_passes _).then fun _ => (modify_passes (by intro _; rfl)).then fun _ =>
      (block_accepts body).bind fun _ => (modify_passes (by intro _; rfl)).then fun _ =>
      (emit_passes _).then fun _ =>
      (handlerBodies_accepts finish handlers labels (catches_length hlabels)).passing fun _ =>
      place_passes finish).iff fun inLoop => ?_
    rw [Handler.legalIn_iff]
    exact and_left_comm
  | «break» | «continue» =>
    simp only [statementNode, StmtNode.Legal]
    exact leaveLoop_accepts _ _ _
  | «return» value =>
    cases value with
    | none =>
      simp only [statementNode, StmtNode.Legal]
      exact emit_passes _
    | some e =>
      simp only [statementNode, StmtNode.Legal]
      exact (expr_accepts e).passing fun _ => emitTake_passes _ 1
  | expr e =>
    simp only [statementNode, StmtNode.Legal]
    exact (expr_accepts e).passing fun _ => emitTake_passes _ 1

theorem block_accepts (stmts : List Stmt) : Accepts (block stmts) fun inLoop => Stmt.LegalIn inLoop stmts := by
  match stmts with
  | [] =>
    simp only [block, Stmt.LegalIn]
    exact pure_passes _
  | stmt :: rest =>
    simp only [block, Stmt.LegalIn]
    exact (statement_accepts stmt).bind fun _ => block_accepts rest

theorem arms_accepts (finish : Label) (branches : List (Expr × List Stmt)) :
    Accepts (arms finish branches) fun inLoop => Stmt.LegalArms inLoop branches := by
  match branches with
  | [] =>
    simp only [arms, Stmt.LegalArms]
    exact pure_passes _
  | (condition, body) :: rest =>
    simp only [arms, Stmt.LegalArms]
    exact (expr_accepts condition).bind fun _ => (newLabel_passes none).then fun next =>
      (emitTake_passes _ 1).then fun _ => (block_accepts body).bind fun _ =>
      (emit_passes _).then fun _ => (place_passes next).then fun _ => arms_accepts finish rest

theorem handlerBodies_accepts (finish : Label) (handlers : List Handler) (labels : List Label)
    (hlabels : labels.length = handlers.length) :
    Accepts (handlerBodies finish handlers labels) fun inLoop => ∀ h ∈ handlers, h.BodyLegal inLoop := by
  match handlers, labels with
  | [], [] =>
    simp only [handlerBodies, List.not_mem_nil, false_implies, implies_true]
    exact pure_passes _
  | [], _ :: _ => exact nomatch hlabels
  | _ :: _, [] => exact nomatch hlabels
  | .mk name codes body :: [], label :: labels =>
    simp only [handlerBodies, List.isEmpty_nil, Bool.not_true, Bool.false_eq_true, if_false,
      List.forall_mem_singleton, Handler.BodyLegal]
    exact (place_passes label).then fun _ =>
      receive_accepts name ((block_accepts body).passing fun _ => pure_passes _)
  | .mk name codes body :: handler :: rest, label :: labels =>
    rw [handlerBodies]
    simp only [List.isEmpty_cons, Bool.not_false, if_true]
    refine ((place_passes label).then fun _ => receive_accepts name
      ((block_accepts body).bind fun _ => (emit_passes _).then fun _ =>
        handlerBodies_accepts finish (handler :: rest) labels (Nat.succ.inj hlabels))).iff fun _ => ?_
    rw [List.forall_mem_cons (a := Handler.mk name codes body)]
    rfl

end

end Draft

/-- A tree has code exactly if it is legal. -/
theorem Script.SyntaxTree.compile_isOk (tree : SyntaxTree) :
    (∃ p, tree.compile = .ok p) ↔ Stmt.LegalIn false tree.statements := by
  have haccepts := Draft.block_accepts tree.statements {}
  have hcompile : tree.compile =
      ((Draft.block tree.statements) {}).bind fun s => .ok (s.2.program tree.names) := rfl
  rw [hcompile]
  cases hblock : Draft.block tree.statements {} with
  | error e =>
    rw [hblock] at haccepts
    exact ⟨fun ⟨_, h⟩ => (nomatch h), fun h => absurd h haccepts⟩
  | ok s =>
    rw [hblock] at haccepts
    exact ⟨fun _ => haccepts.1, fun _ => ⟨_, rfl⟩⟩

end Lineage
