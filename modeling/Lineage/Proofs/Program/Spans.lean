/-
  Lineage.Proofs.Program.Spans

  Where the code of each statement starts.

  `Stmt.starts` lists the statements of a script in the order of their code, each with
  the place where its code starts and how many `for` loops and `try` bodies are around
  it.  The places are computed from the lengths of code; that they are right is shown
  by the spans of the program, which the generator notes while it writes
  (`SyntaxTree.spans_eq`).
-/
import Lineage.Proofs.Program.StatementPlacement
import Lineage.Proofs.Program.StmtShapes

namespace Lineage

namespace Script

/-! ## Statements in the order of their code -/

/-- The start of a statement. -/
structure Start where
  position : Nat
  line : Nat
  /-- How many `for` loops are around the statement. -/
  fors : Nat
  /-- How many `try` bodies are around it. -/
  tries : Nat

/-- What a program notes of the start of a statement. -/
def Start.span (s : Start) : Nat × Nat := (s.position, s.line)

mutual

/-- The starts in a statement whose code starts at `i`, in shape `σ`. -/
def Stmt.starts (σ : Shape) (i fors tries : Nat) : Stmt → List Start
  | .mk line _ node => ⟨i, line, fors, tries⟩ :: StmtNode.starts σ i fors tries node

def StmtNode.starts (σ : Shape) (i fors tries : Nat) : StmtNode → List Start
  | .branch arms otherwise => armsStarts σ i fors tries arms ++
      (match otherwise with
        | some body => blockStarts σ (i + (armsShapes σ arms).length) fors tries body
        | none => [])
  | .forList _ source body =>
      blockStarts (σ.up 2) (i + (source.shapes σ).length + 2) (fors + 1) tries body
  | .forRange _ first last body =>
      blockStarts (σ.up 2) (i + (first.shapes σ).length + (last.shapes (σ.up 1)).length + 1)
        (fors + 1) tries body
  | .while condition body => blockStarts σ (i + (condition.shapes σ).length + 1) fors tries body
  | .try body handlers =>
      let start := i + (catchesShapes σ handlers).length + 1
      blockStarts σ.enter start fors (tries + 1) body ++
        handlersStarts σ (start + (blockShapes σ.enter body).length + 1) fors tries handlers
  | .break | .continue | .return _ | .expr _ => []

def blockStarts (σ : Shape) (i fors tries : Nat) : List Stmt → List Start
  | [] => []
  | stmt :: rest => Stmt.starts σ i fors tries stmt ++
      blockStarts σ (i + (stmt.shapes σ).length) fors tries rest

def armsStarts (σ : Shape) (i fors tries : Nat) : List (Expr × List Stmt) → List Start
  | [] => []
  | (condition, body) :: rest =>
      let start := i + (condition.shapes σ).length + 1
      blockStarts σ start fors tries body ++
        armsStarts σ (start + (blockShapes σ body).length + 1) fors tries rest

def handlersStarts (σ : Shape) (i fors tries : Nat) : List Handler → List Start
  | [] => []
  | .mk name _ body :: rest =>
      let start := i + (receiveShapes σ name).length
      blockStarts σ start fors tries body ++
        handlersStarts σ (start + (blockShapes σ body).length + 1) fors tries rest

end

/-- The starts of all statements of a script. -/
def SyntaxTree.starts (tree : SyntaxTree) : List Start :=
  blockStarts (.plain 0 []) 0 0 0 tree.statements

end Script

/-! ## What the generator notes -/

namespace Draft

open Script

/-- A part of the generator that adds `n` instructions and notes the starts of statements, which
depend on where it starts itself. -/
def Notes {α : Type} (x : Drafting α) (n : Nat) (starts : Nat → List (Nat × Nat)) : Prop :=
  ∀ d a d', x d = .ok (a, d') → d'.ops.size = d.ops.size + n ∧
    d'.spans.toList = d.spans.toList ++ starts d.ops.size ∧ Initial d.ops d'.ops

/-- A part of the generator that writes `n` instructions and notes nothing. -/
abbrev Quiet {α : Type} (x : Drafting α) (n : Nat) : Prop := Notes x n fun _ => []

variable {α β : Type} {x : Drafting α} {f : α → Drafting β} {m n : Nat}
  {s t : Nat → List (Nat × Nat)}

theorem Notes.bind_of (hx : Notes x m s)
    (hf : ∀ a, (∃ d d', x d = .ok (a, d')) → Notes (f a) n t) :
    Notes (x >>= f) (m + n) fun i => s i ++ t (i + m) := by
  intro d b d₂ hrun
  obtain ⟨a, d₁, ha, hb⟩ := run_bind hrun
  obtain ⟨hsize₁, hspans₁, hgrown₁⟩ := hx d a d₁ ha
  obtain ⟨hsize₂, hspans₂, hgrown₂⟩ := hf a ⟨d, d₁, ha⟩ d₁ b d₂ hb
  refine ⟨by omega, ?_, hgrown₁.trans hgrown₂⟩
  rw [hspans₂, hspans₁, hsize₁, List.append_assoc]

theorem Notes.bind (hx : Notes x m s) (hf : ∀ a, Notes (f a) n t) :
    Notes (x >>= f) (m + n) fun i => s i ++ t (i + m) :=
  hx.bind_of fun a _ => hf a

theorem Notes.of_eq (hx : Notes x m s) (hsize : m = n) (hstarts : ∀ i, s i = t i) :
    Notes x n t := by
  intro d a d' hrun
  obtain ⟨hsize', hspans, hgrown⟩ := hx d a d' hrun
  rw [← hsize, ← hstarts]
  exact ⟨hsize', hspans, hgrown⟩

theorem Quiet.bind_of (hx : Quiet x m) (hf : ∀ a, (∃ d d', x d = .ok (a, d')) → Quiet (f a) n) :
    Quiet (x >>= f) (m + n) :=
  Notes.of_eq (Notes.bind_of hx hf) rfl fun _ => rfl

theorem Quiet.bind (hx : Quiet x m) (hf : ∀ a, Quiet (f a) n) : Quiet (x >>= f) (m + n) :=
  hx.bind_of fun a _ => hf a

/-- What is written first and notes nothing only moves the starts. -/
theorem Quiet.then (hx : Quiet x m) (hf : ∀ a, Notes (f a) n t) :
    Notes (x >>= f) (m + n) fun i => t (i + m) :=
  Notes.of_eq (Notes.bind hx hf) rfl fun _ => rfl

theorem Notes.thenQuiet (hx : Notes x m s) (hf : ∀ a, Quiet (f a) n) :
    Notes (x >>= f) (m + n) s :=
  Notes.of_eq (hx.bind hf) rfl fun _ => List.append_nil _

theorem Quiet.resize (hx : Quiet x m) (h : m = n) : Quiet x n := h ▸ hx

theorem Quiet.throw {e : CompileError} : Quiet (throw e : Drafting α) n := by
  intro d a d' hrun
  exact nomatch (hrun : Except.error e = Except.ok (a, d'))

theorem Quiet.pure (a : α) : Quiet (Pure.pure a : Drafting α) 0 := by
  intro d b d' hrun
  cases hrun
  exact ⟨rfl, (List.append_nil _).symm, .refl _⟩

theorem Quiet.modify {set : Draft → Draft} (hops : ∀ d, (set d).ops = d.ops)
    (hspans : ∀ d, (set d).spans = d.spans) : Quiet (modify set) 0 := by
  intro d a d' hrun
  have hrun : Except.ok ((), set d) = Except.ok (a, d') := hrun
  cases hrun
  rw [hops, hspans]
  exact ⟨rfl, (List.append_nil _).symm, .refl _⟩

theorem emit_quiet (op : Op) : Quiet (emit op) 1 := by
  intro d a d' hrun
  cases hrun
  exact ⟨by simp only [Array.size_push], (List.append_nil _).symm, .push _ _⟩

theorem adjust_quiet (change : Nat → Nat) : Quiet (adjust change) 0 :=
  .modify (fun _ => rfl) fun _ => rfl

theorem emitPush_quiet (op : Op) : Quiet (emitPush op) 1 :=
  (emit_quiet op).bind fun _ => adjust_quiet _

theorem emitTake_quiet (op : Op) (k : Nat) : Quiet (emitTake op k) 1 :=
  (emit_quiet op).bind fun _ => adjust_quiet _

theorem newLabel_quiet (owner : Option Name) : Quiet (newLabel owner) 0 := by
  intro d a d' hrun
  cases hrun
  exact ⟨rfl, (List.append_nil _).symm, .refl _⟩

theorem place_quiet (l : Label) : Quiet (place l) 0 := .modify (fun _ => rfl) fun _ => rfl

theorem scatterTable_quiet (t : ScatterTable) : Quiet (scatterTable t) 0 := by
  intro d a d' hrun
  cases hrun
  exact ⟨rfl, (List.append_nil _).symm, .refl _⟩

theorem literal_quiet (v : Value) : Quiet (literal v) 0 := by
  intro d l d' hrun
  cases hfind : d.literals.findIdx? (·.equals v) with
  | some i =>
    rw [literal_run, hfind] at hrun
    cases hrun
    exact ⟨rfl, (List.append_nil _).symm, .refl _⟩
  | none =>
    rw [literal_run, hfind] at hrun
    cases hrun
    exact ⟨rfl, (List.append_nil _).symm, .refl _⟩

/-! ## Expressions -/

theorem constant_quiet (v : Value) : Quiet (constant v) 1 := by
  have pooled : Quiet (do emitPush (.pushLiteral (← literal v))) 1 :=
    ((literal_quiet v).bind fun l => emitPush_quiet _).resize rfl
  cases v with
  | null => exact emitPush_quiet _
  | obj id => exact emitPush_quiet _
  | int n => exact emitPush_quiet _
  | float x => exact emitPush_quiet _
  | _ => exact pooled

theorem putBack_quiet (target : Expr) (σ : Shape) :
    Quiet (putBack target) (putBackShapes σ target).length := by
  cases target with
  | index base index =>
    refine ((emitTake_quiet .indexSet 2).bind fun _ => putBack_quiet base σ).resize ?_
    rw [putBackShapes, List.length_cons, Nat.add_comm]
  | var name => exact emit_quiet _
  | prop object property => exact emitTake_quiet _ 2
  | _ => exact .throw

theorem scatterEntries_quiet (targets : List Target) : Quiet (scatterEntries targets) 0 := by
  have cons (entry : ScatterEntry) {rest : List Target} (h : Quiet (scatterEntries rest) 0) :
      Quiet (scatterEntries rest >>= fun more => Pure.pure (entry :: more)) 0 :=
    (h.bind fun _ => .pure _).resize rfl
  induction targets with
  | nil => exact .pure _
  | cons target rest ih =>
    cases target with
    | required name => simpa only [scatterEntries, pure_bind] using cons _ ih
    | rest name => simpa only [scatterEntries, pure_bind] using cons _ ih
    | optional name default =>
      cases default with
      | none => simpa only [scatterEntries, pure_bind] using cons _ ih
      | some e =>
        simp only [scatterEntries, pure_bind]
        exact ((newLabel_quiet none).bind fun label => cons _ ih).resize rfl

mutual

/-- The code of an expression is as long as the list of its shapes, and starts no statement. -/
theorem expr_quiet (e : Expr) (σ : Shape) : Quiet (expr e) (e.shapes σ).length := by
  cases e with
  | value v =>
    simp only [expr]
    exact constant_quiet v
  | var name =>
    simp only [expr]
    exact emitPush_quiet _
  | and left right =>
    simp only [expr]
    refine ((expr_quiet left σ).bind fun _ => (newLabel_quiet none).bind fun done =>
      (emitTake_quiet _ 1).bind fun _ => (expr_quiet right σ).bind fun _ =>
      place_quiet done).resize ?_
    simp only [Expr.shapes, List.length_append, List.length_cons]
    omega
  | or left right =>
    simp only [expr]
    refine ((expr_quiet left σ).bind fun _ => (newLabel_quiet none).bind fun done =>
      (emitTake_quiet _ 1).bind fun _ => (expr_quiet right σ).bind fun _ =>
      place_quiet done).resize ?_
    simp only [Expr.shapes, List.length_append, List.length_cons]
    omega
  | binary op left right | index left right | prop left right =>
    simp only [expr]
    refine ((expr_quiet left σ).bind fun _ => (expr_quiet right (σ.up 1)).bind fun _ =>
      emitTake_quiet _ 1).resize ?_
    simp only [Expr.shapes, List.length_append, List.length_cons, List.length_nil]
  | unary op operand =>
    have hlength : (operand.shapes σ).length + 1 = (Expr.shapes σ (.unary op operand)).length := by
      simp only [Expr.shapes, List.length_append, List.length_cons, List.length_nil]
    cases op with
    | neg =>
      simp only [expr]
      exact ((expr_quiet operand σ).bind fun _ => emit_quiet _).resize hlength
    | not =>
      simp only [expr]
      exact ((expr_quiet operand σ).bind fun _ => emit_quiet _).resize hlength
  | range base first last =>
    simp only [expr]
    refine ((expr_quiet base σ).bind fun _ => (expr_quiet first (σ.up 1)).bind fun _ =>
      (expr_quiet last (σ.up 2)).bind fun _ => emitTake_quiet _ 2).resize ?_
    simp only [Expr.shapes, List.length_append, List.length_cons, List.length_nil]
  | call function args =>
    simp only [expr]
    cases Builtin.find? function with
    | none => exact .throw
    | some f =>
      refine ((arguments_quiet args σ).bind fun _ => emit_quiet _).resize ?_
      simp only [Expr.shapes, List.length_append, List.length_cons, List.length_nil]
  | verb object name args =>
    simp only [expr]
    refine ((expr_quiet object σ).bind fun _ => (expr_quiet name (σ.up 1)).bind fun _ =>
      (arguments_quiet args (σ.up 2)).bind fun _ => emitTake_quiet _ 2).resize ?_
    simp only [Expr.shapes, List.length_append, List.length_cons, List.length_nil]
  | cond condition consequence alternative =>
    simp only [expr]
    refine ((expr_quiet condition σ).bind fun _ => (newLabel_quiet none).bind fun otherwise =>
      (emitTake_quiet _ 1).bind fun _ => (expr_quiet consequence σ).bind fun _ =>
      (newLabel_quiet none).bind fun done => (emitTake_quiet _ 1).bind fun _ =>
      (place_quiet otherwise).bind fun _ => (expr_quiet alternative σ).bind fun _ =>
      place_quiet done).resize ?_
    simp only [Expr.shapes, List.length_append, List.length_cons]
    omega
  | list items =>
    simp only [expr, Expr.shapes]
    exact arguments_quiet items σ
  | map items =>
    simp only [expr]
    refine ((emitPush_quiet _).bind fun _ => entries_quiet items σ).resize ?_
    simp only [Expr.shapes, List.length_cons, Nat.add_comm]
  | scatter targets source =>
    simp only [expr]
    refine ((expr_quiet source σ).bind fun _ =>
      (scatterEntries_quiet targets).bind_of fun table htable =>
      (newLabel_quiet none).bind fun done => (scatterTable_quiet ⟨table, done⟩).bind fun slot =>
      (emit_quiet _).bind fun _ =>
      (defaults_quiet targets table (scatterEntries_fills htable) σ).bind fun _ =>
      place_quiet done).resize ?_
    simp only [Expr.shapes, List.length_append, List.length_cons]
    omega
  | assign target value =>
    simp only [expr]
    have hoperands := location_quiet false target σ
    have hvalue := expr_quiet value (σ.up (operandCount target))
    have hback := putBack_quiet target σ
    by_cases hi : isIndexed target = true
    · simp only [hi, if_true]
      refine (hoperands.bind fun _ => hvalue.bind fun _ => (emit_quiet _).bind fun _ =>
        hback.bind fun _ => (emit_quiet _).bind fun _ => emit_quiet _).resize ?_
      simp only [Expr.shapes, hi, if_true, List.length_append, List.length_cons, List.length_nil]
      omega
    · simp only [hi, Bool.false_eq_true, if_false]
      refine (hoperands.bind fun _ => hvalue.bind fun _ => hback.bind fun _ => .pure _).resize ?_
      simp only [Expr.shapes, hi, Bool.false_eq_true, if_false, List.length_append]
      omega

theorem location_quiet (inner : Bool) (target : Expr) (σ : Shape) :
    Quiet (location inner target) (locationShapes inner σ target).length := by
  cases target with
  | index base index =>
    simp only [location]
    cases inner with
    | false =>
      refine ((location_quiet true base σ).bind fun _ =>
        (expr_quiet index (σ.up (operandCount base + 1))).bind fun _ => .pure _).resize ?_
      simp only [locationShapes, List.length_append, Bool.false_eq_true, if_false, List.length_nil]
    | true =>
      refine ((location_quiet true base σ).bind fun _ =>
        (expr_quiet index (σ.up (operandCount base + 1))).bind fun _ => emitPush_quiet _).resize ?_
      simp only [locationShapes, List.length_append, if_true, List.length_cons, List.length_nil]
  | var name =>
    simp only [location]
    cases inner with
    | false => exact .pure _
    | true => exact emitPush_quiet _
  | prop object property =>
    simp only [location]
    cases inner with
    | false =>
      refine ((expr_quiet object σ).bind fun _ => (expr_quiet property (σ.up 1)).bind fun _ =>
        .pure _).resize ?_
      simp only [locationShapes, List.length_append, Bool.false_eq_true, if_false, List.length_nil]
    | true =>
      refine ((expr_quiet object σ).bind fun _ => (expr_quiet property (σ.up 1)).bind fun _ =>
        emitPush_quiet _).resize ?_
      simp only [locationShapes, List.length_append, if_true, List.length_cons, List.length_nil]
  | _ =>
    simp only [location]
    exact .throw

theorem arguments_quiet (args : List Arg) (σ : Shape) :
    Quiet (arguments args) (argsShapes σ args).length := by
  match args with
  | [] =>
    simp only [arguments]
    exact emitPush_quiet _
  | .item e :: rest | .splice e :: rest =>
    simp only [arguments]
    refine ((expr_quiet e σ).bind fun _ => (emit_quiet _).bind fun _ =>
      moreArguments_quiet rest σ).resize ?_
    simp only [argsShapes, List.length_append, List.length_cons]
    omega

theorem moreArguments_quiet (args : List Arg) (σ : Shape) :
    Quiet (moreArguments args) (moreArgsShapes σ args).length := by
  match args with
  | [] =>
    simp only [moreArguments]
    exact .pure _
  | .item e :: rest | .splice e :: rest =>
    simp only [moreArguments]
    refine ((expr_quiet e (σ.up 1)).bind fun _ => (emitTake_quiet _ 1).bind fun _ =>
      moreArguments_quiet rest σ).resize ?_
    simp only [moreArgsShapes, List.length_append, List.length_cons]
    omega

theorem entries_quiet (items : List (Expr × Expr)) (σ : Shape) :
    Quiet (entries items) (entriesShapes σ items).length := by
  match items with
  | [] =>
    simp only [entries]
    exact .pure _
  | (key, value) :: rest =>
    simp only [entries]
    refine ((expr_quiet key (σ.up 1)).bind fun _ => (expr_quiet value (σ.up 2)).bind fun _ =>
      (emitTake_quiet _ 2).bind fun _ => entries_quiet rest σ).resize ?_
    simp only [entriesShapes, List.length_append, List.length_cons]
    omega

theorem defaults_quiet (targets : List Target) (table : List ScatterEntry)
    (hfills : Fills targets table) (σ : Shape) :
    Quiet (defaults targets table) (defaultsShapes σ targets).length := by
  match targets with
  | [] =>
    obtain rfl := hfills
    simp only [defaults]
    exact .pure _
  | .required name :: targets | .rest name :: targets | .optional name none :: targets =>
    obtain ⟨rest, rfl, hrest⟩ := hfills
    simp only [defaults, defaultsShapes]
    exact defaults_quiet targets rest hrest σ
  | .optional name (some e) :: targets =>
    obtain ⟨label, rest, rfl, hrest⟩ := hfills
    simp only [defaults]
    refine ((place_quiet label).bind fun _ => (expr_quiet e (σ.up 1)).bind fun _ =>
      (emit_quiet _).bind fun _ => (emitTake_quiet _ 1).bind fun _ =>
      defaults_quiet targets rest hrest σ).resize ?_
    simp only [defaultsShapes, List.length_append, List.length_cons]
    omega

end

/-! ## Statements -/

/-- The spans of some starts, which depend on where the code starts. -/
abbrev spansOf (starts : Nat → List Start) : Nat → List (Nat × Nat) :=
  fun i => (starts i).map Start.span

theorem startStatement_notes (line : Nat) :
    Notes (startStatement line) 0 fun i => [(i, line)] := by
  intro d a d' hrun
  cases hrun
  exact ⟨rfl, Array.toList_push, .refl _⟩

theorem catches_quiet (handlers : List Handler) (σ : Shape) :
    Quiet (catches handlers) (catchesShapes σ handlers).length := by
  induction handlers generalizing σ with
  | nil => exact .pure _
  | cons handler rest ih =>
    obtain ⟨name, codes, body⟩ := handler
    have htail (handler : Label) : Quiet (do
        emit (.pushCatch handler)
        let more ← catches rest
        Pure.pure (handler :: more)) (1 + (catchesShapes (σ.up 1).prepare rest).length) :=
      ((emit_quiet _).bind fun _ => (ih _).bind fun _ => .pure _).resize rfl
    cases codes with
    | any =>
      simp only [catches]
      refine ((emitPush_quiet _).bind fun _ => (newLabel_quiet none).bind htail).resize ?_
      simp only [catchesShapes, codesShapes, List.length_append, List.length_cons, List.length_nil]
      omega
    | listed codes =>
      simp only [catches]
      refine ((arguments_quiet codes σ).bind fun _ => (newLabel_quiet none).bind htail).resize ?_
      simp only [catchesShapes, codesShapes, List.length_append, List.length_cons]
      omega

theorem leaveLoop_quiet (word : String) (height : LoopExits → Nat) (target : LoopExits → Label) :
    Quiet (leaveLoop word height target) 1 := by
  intro d a d' hrun
  rw [leaveLoop_eq] at hrun
  cases hloops : d.loops with
  | nil => rw [hloops] at hrun; cases hrun
  | cons exits rest =>
    rw [hloops] at hrun
    exact emit_quiet _ d a d' hrun

theorem loopBody_notes {top finish : Label} {kept : Nat} {body : Drafting Unit}
    (h : Notes body n s) : Notes (loopBody top finish kept body) (n + 1) s := by
  simp only [loopBody]
  refine ((Quiet.modify (by intro _; rfl) (by intro _; rfl)).then fun _ => h.thenQuiet fun _ =>
    (emit_quiet _).bind fun _ => (Quiet.modify (by intro _; rfl) (by intro _; rfl)).bind fun _ =>
    (place_quiet finish).bind fun _ => adjust_quiet _).of_eq ?_ fun i => rfl
  omega

/-- Taking the error off the stack. -/
theorem receive_notes (name : Option Name) (σ : Shape) {k : Drafting Unit} (h : Notes k n s) :
    Notes (do
      adjust (· + 1)
      if let some name := name then emit (.store name)
      emitTake .pop 1
      k) ((receiveShapes σ name).length + n) fun i => s (i + (receiveShapes σ name).length) := by
  cases name with
  | none =>
    refine ((adjust_quiet _).then fun _ => (emitTake_quiet .pop 1).then fun _ => h).of_eq ?_
      fun i => rfl
    simp only [receiveShapes, List.length_cons, List.length_nil]
    omega
  | some name =>
    refine ((adjust_quiet _).then fun _ => (emit_quiet (.store name)).then fun _ =>
      (emitTake_quiet .pop 1).then fun _ => h).of_eq ?_ fun i => rfl
    simp only [receiveShapes, List.length_cons, List.length_nil]
    omega

mutual

/-- The generator notes the starts of a statement in the order of their code. -/
theorem statement_notes (stmt : Stmt) (σ : Shape) (fors tries : Nat) :
    Notes (statement stmt) (stmt.shapes σ).length
      (spansOf fun i => stmt.starts σ i fors tries) := by
  obtain ⟨line, column, node⟩ := stmt
  simp only [statement]
  refine ((startStatement_notes line).bind fun _ => statementNode_notes node σ fors tries).of_eq
    ?_ fun i => ?_
  · simp only [Stmt.shapes, Nat.zero_add]
  · rfl

theorem statementNode_notes (node : StmtNode) (σ : Shape) (fors tries : Nat) :
    Notes (statementNode node) (node.shapes σ).length
      (spansOf fun i => node.starts σ i fors tries) := by
  cases node with
  | branch branches otherwise =>
    cases otherwise with
    | none =>
      simp only [statementNode]
      refine ((newLabel_quiet none).then fun finish =>
        (arms_notes finish branches σ fors tries).thenQuiet fun _ => place_quiet finish).of_eq ?_
        fun i => ?_
      · simp only [StmtNode.shapes, List.append_nil]; omega
      · simp only [StmtNode.starts, List.append_nil, Nat.add_zero]
    | some body =>
      simp only [statementNode]
      refine ((newLabel_quiet none).then fun finish =>
        (arms_notes finish branches σ fors tries).bind fun _ =>
        (block_notes body σ fors tries).thenQuiet fun _ => place_quiet finish).of_eq ?_ fun i => ?_
      · simp only [StmtNode.shapes, List.length_append]; omega
      · simp only [StmtNode.starts, Nat.add_zero, List.map_append]
  | forList name source body =>
    simp only [statementNode]
    refine ((expr_quiet source σ).then fun _ => (emitPush_quiet _).then fun _ =>
      (newLabel_quiet _).then fun top => (newLabel_quiet _).then fun finish =>
      (place_quiet top).then fun _ => (emit_quiet _).then fun _ =>
      loopBody_notes (block_notes body (σ.up 2) (fors + 1) tries)).of_eq ?_ fun i => ?_
    · simp only [StmtNode.shapes, List.length_append, List.length_cons, List.length_nil]; omega
    · simp only [StmtNode.starts, Nat.add_zero]
  | forRange name first last body =>
    simp only [statementNode]
    refine ((expr_quiet first σ).then fun _ => (expr_quiet last (σ.up 1)).then fun _ =>
      (newLabel_quiet _).then fun top => (newLabel_quiet _).then fun finish =>
      (place_quiet top).then fun _ => (emit_quiet _).then fun _ =>
      loopBody_notes (block_notes body (σ.up 2) (fors + 1) tries)).of_eq ?_ fun i => ?_
    · simp only [StmtNode.shapes, List.length_append, List.length_cons, List.length_nil]; omega
    · simp only [StmtNode.starts, Nat.add_zero]
  | «while» condition body =>
    simp only [statementNode]
    refine ((newLabel_quiet none).then fun top => (newLabel_quiet none).then fun finish =>
      (place_quiet top).then fun _ => (expr_quiet condition σ).then fun _ =>
      (emitTake_quiet _ 1).then fun _ =>
      loopBody_notes (block_notes body σ fors tries)).of_eq ?_ fun i => ?_
    · simp only [StmtNode.shapes, List.length_append, List.length_cons, List.length_nil]; omega
    · simp only [StmtNode.starts, Nat.add_zero]
  | «try» body handlers =>
    simp only [statementNode]
    refine (Notes.bind_of (catches_quiet handlers σ) fun labels hlabels =>
      (adjust_quiet _).then fun _ => (newLabel_quiet none).then fun finish =>
      (emit_quiet _).then fun _ => (Quiet.modify (by intro _; rfl) (by intro _; rfl)).then fun _ =>
      (block_notes body σ.enter fors (tries + 1)).bind fun _ =>
      (Quiet.modify (by intro _; rfl) (by intro _; rfl)).then fun _ => (emit_quiet _).then fun _ =>
      (handlerBodies_notes finish handlers labels (catches_length hlabels) σ fors tries).thenQuiet
        fun _ => place_quiet finish).of_eq ?_ fun i => ?_
    · simp only [StmtNode.shapes, List.length_append, List.length_cons]; omega
    · simp only [StmtNode.starts, Nat.add_zero, List.nil_append, List.map_append]
  | «break» | «continue» =>
    simp only [statementNode]
    exact leaveLoop_quiet _ _ _
  | «return» value =>
    cases value with
    | none =>
      simp only [statementNode]
      exact emit_quiet _
    | some e =>
      simp only [statementNode]
      refine ((expr_quiet e σ).bind fun _ => emitTake_quiet _ 1).resize ?_
      simp only [StmtNode.shapes, List.length_append, List.length_cons, List.length_nil]
  | expr e =>
    simp only [statementNode]
    refine ((expr_quiet e σ).bind fun _ => emitTake_quiet _ 1).resize ?_
    simp only [StmtNode.shapes, List.length_append, List.length_cons, List.length_nil]

theorem block_notes (stmts : List Stmt) (σ : Shape) (fors tries : Nat) :
    Notes (block stmts) (blockShapes σ stmts).length
      (spansOf fun i => blockStarts σ i fors tries stmts) := by
  match stmts with
  | [] =>
    simp only [block]
    exact Quiet.pure ()
  | stmt :: rest =>
    simp only [block]
    refine ((statement_notes stmt σ fors tries).bind fun _ =>
      block_notes rest σ fors tries).of_eq ?_ fun i => ?_
    · rw [blockShapes, List.length_append]
    · simp only [blockStarts, List.map_append]

theorem arms_notes (finish : Label) (branches : List (Expr × List Stmt)) (σ : Shape)
    (fors tries : Nat) :
    Notes (arms finish branches) (armsShapes σ branches).length
      (spansOf fun i => armsStarts σ i fors tries branches) := by
  match branches with
  | [] =>
    simp only [arms]
    exact Quiet.pure ()
  | (condition, body) :: rest =>
    simp only [arms]
    refine ((expr_quiet condition σ).then fun _ => (newLabel_quiet none).then fun next =>
      (emitTake_quiet _ 1).then fun _ => (block_notes body σ fors tries).bind fun _ =>
      (emit_quiet _).then fun _ => (place_quiet next).then fun _ =>
      arms_notes finish rest σ fors tries).of_eq ?_ fun i => ?_
    · simp only [armsShapes, List.length_append, List.length_cons]; omega
    · simp only [armsStarts, Nat.add_zero, List.map_append]

theorem handlerBodies_notes (finish : Label) (handlers : List Handler) (labels : List Label)
    (hlabels : labels.length = handlers.length) (σ : Shape) (fors tries : Nat) :
    Notes (handlerBodies finish handlers labels) (handlersShapes σ handlers).length
      (spansOf fun i => handlersStarts σ i fors tries handlers) := by
  match handlers, labels with
  | [], [] =>
    simp only [handlerBodies]
    exact Quiet.pure ()
  | [], _ :: _ => exact nomatch hlabels
  | _ :: _, [] => exact nomatch hlabels
  | .mk name codes body :: [], label :: labels =>
    -- The last body falls through to the end.
    simp only [handlerBodies, List.isEmpty_nil, Bool.not_true, Bool.false_eq_true, if_false]
    refine ((place_quiet label).then fun _ => receive_notes name σ
      ((block_notes body σ fors tries).thenQuiet fun _ => Quiet.pure ())).of_eq ?_ fun i => ?_
    · simp only [handlersShapes, List.length_append, List.isEmpty_nil, if_true, List.length_nil]
      omega
    · simp only [handlersStarts, Nat.add_zero, List.append_nil]
  | .mk name codes body :: handler :: rest, label :: labels =>
    rw [handlerBodies]
    simp only [List.isEmpty_cons, Bool.not_false, if_true]
    refine ((place_quiet label).then fun _ => receive_notes name σ
      ((block_notes body σ fors tries).bind fun _ => (emit_quiet _).then fun _ =>
      handlerBodies_notes finish (handler :: rest) labels (Nat.succ.inj hlabels) σ fors
        tries)).of_eq ?_ fun i => ?_
    · rw [handlersShapes]
      simp only [List.length_append, List.isEmpty_cons, Bool.false_eq_true, if_false,
        List.length_cons]
      omega
    · simp only [handlersStarts, Nat.add_zero, List.map_append]

end

end Draft

/-- The places where the code of statements starts are those that the program notes. -/
theorem Script.SyntaxTree.spans_eq {tree : SyntaxTree} {p : Program} (h : tree.compile = .ok p) :
    p.spans = tree.starts.map Start.span := by
  obtain ⟨d, hblock, rfl⟩ := SyntaxTree.compile_ok h
  obtain ⟨-, hspans, -⟩ := Draft.block_notes tree.statements (.plain 0 []) 0 0 {} () d hblock
  exact hspans

end Lineage
