/-
  Lineage.Proofs.Program.Lines

  The lines of instructions that can raise an error.

  An instruction that can raise an error is told the line of the innermost statement that
  it was generated for, but for the conditions of the later arms of a branch: those are
  told the line of the statement that started last in the arms before them, which is over
  by then (`SyntaxTree.told`).

  What comes after a nested block and is no such condition only moves on or tidies up
  (`Op.CanRaise` fails of it).  The proof follows the generator: `Confines` says of a part
  of it where the instructions that can raise an error lie among those that it adds.
-/
import Lineage.Machine.Frame
import Lineage.Proofs.Program.Extents

namespace Lineage

/-! ## Instructions that can raise an error -/

/-- An error, or a request that may be answered by one. -/
def Reply.Risky : Reply → Prop
  | .raise _ _ | .ask _ _ => True
  | .next _ | .return _ | .fault => False

/-- An error can be raised at an instruction, by itself or by what it asks of the world. -/
def Op.CanRaise (op : Op) : Prop := ∃ f : Frame, (f.perform op).Risky

namespace Frame

theorem jump_not_risky (f : Frame) (l : Label) : ¬ (f.jump l).Risky := by
  unfold jump
  split
  · exact id
  · exact id

theorem jumpUnless_not_risky (f : Frame) (holds : Bool) (l : Label) :
    ¬ (f.jumpUnless holds l).Risky := by
  cases holds with
  | true => exact id
  | false => exact jump_not_risky f l

end Frame

namespace Op

theorem jump_safe (l : Label) : ¬ (Op.jump l).CanRaise := by
  rintro ⟨f, h⟩
  exact f.jump_not_risky l h

theorem branch_safe (l : Label) : ¬ (Op.branch l).CanRaise := by
  rintro ⟨f, h⟩
  unfold Frame.perform at h
  cases hstack : f.stack with
  | nil => rw [hstack] at h; exact h
  | cons v rest =>
    rw [hstack] at h
    exact Frame.jumpUnless_not_risky _ _ _ h

theorem pop_safe : ¬ Op.pop.CanRaise := by
  rintro ⟨f, h⟩
  unfold Frame.perform at h
  cases hstack : f.stack with
  | nil => rw [hstack] at h; exact h
  | cons v rest => rw [hstack] at h; exact h

theorem store_safe (name : Script.Name) : ¬ (Op.store name).CanRaise := by
  rintro ⟨f, h⟩
  unfold Frame.perform at h
  cases hstack : f.stack with
  | nil => rw [hstack] at h; exact h
  | cons v rest =>
    simp only [hstack] at h
    split at h
    · exact h
    · exact h

theorem leaveTry_safe (l : Label) : ¬ (Op.leaveTry l).CanRaise := by
  rintro ⟨f, h⟩
  unfold Frame.perform at h
  simp only at h
  split at h
  · exact Frame.jump_not_risky _ _ h
  · exact Frame.jump_not_risky _ _ h

theorem finish_safe : ¬ Op.finish.CanRaise := by
  rintro ⟨f, h⟩
  exact h

end Op

/-! ## Where the generator puts instructions that can raise an error -/

namespace Draft

open Script

/-- A part of the generator that adds `n` instructions, of which only those at places with `P` can
raise an error.  `P` depends on where the part starts. -/
def Confines {α : Type} (x : Drafting α) (n : Nat) (P : Nat → Nat → Prop) : Prop :=
  ∀ d a d', x d = .ok (a, d') → d'.ops.size = d.ops.size + n ∧ Initial d.ops d'.ops ∧
    ∀ ops, Initial d'.ops ops → ∀ pc op, d.ops.size ≤ pc → pc < d.ops.size + n →
      ops[pc]? = some op → op.CanRaise → P d.ops.size pc

variable {α β : Type} {x : Drafting α} {f : α → Drafting β} {m n : Nat} {P Q : Nat → Nat → Prop}

theorem Confines.bind_of (hx : Confines x m P)
    (hf : ∀ a, (∃ d d', x d = .ok (a, d')) → Confines (f a) n Q) :
    Confines (x >>= f) (m + n) fun i pc => (pc < i + m ∧ P i pc) ∨ (i + m ≤ pc ∧ Q (i + m) pc) := by
  intro d b d₂ hrun
  obtain ⟨a, d₁, ha, hb⟩ := run_bind hrun
  obtain ⟨hsize₁, hgrown₁, hops₁⟩ := hx d a d₁ ha
  obtain ⟨hsize₂, hgrown₂, hops₂⟩ := hf a ⟨d, d₁, ha⟩ d₁ b d₂ hb
  refine ⟨by omega, hgrown₁.trans hgrown₂, ?_⟩
  intro ops hops pc op hfrom hto hop hraise
  by_cases hpc : pc < d.ops.size + m
  · exact .inl ⟨hpc, hops₁ ops (hgrown₂.trans hops) pc op hfrom hpc hop hraise⟩
  · have hpc := Nat.le_of_not_lt hpc
    rw [hsize₁] at hops₂
    exact .inr ⟨hpc, hops₂ ops hops pc op hpc (by omega) hop hraise⟩

theorem Confines.bind (hx : Confines x m P) (hf : ∀ a, Confines (f a) n Q) :
    Confines (x >>= f) (m + n) fun i pc => (pc < i + m ∧ P i pc) ∨ (i + m ≤ pc ∧ Q (i + m) pc) :=
  hx.bind_of fun a _ => hf a

theorem Confines.imp (hx : Confines x m P) (hsize : m = n)
    (h : ∀ i pc, i ≤ pc → pc < i + n → P i pc → Q i pc) : Confines x n Q := by
  subst hsize
  intro d a d' hrun
  obtain ⟨hsize, hgrown, hops⟩ := hx d a d' hrun
  refine ⟨hsize, hgrown, ?_⟩
  intro ops hinitial pc op hfrom hto hop hraise
  exact h _ pc hfrom hto (hops ops hinitial pc op hfrom hto hop hraise)

/-- Any of the instructions may be able to raise an error. -/
theorem Notes.confines {s : Nat → List (Nat × Nat)} (hx : Notes x n s) :
    Confines x n fun _ _ => True := by
  intro d a d' hrun
  obtain ⟨hsize, -, hgrown⟩ := hx d a d' hrun
  exact ⟨hsize, hgrown, fun _ _ _ _ _ _ _ _ => trivial⟩

/-- What adds no instruction only moves on. -/
theorem Notes.confinesThen {s : Nat → List (Nat × Nat)} (hx : Notes x 0 s)
    (hf : ∀ a, Confines (f a) n P) : Confines (x >>= f) n P := by
  refine (hx.confines.bind hf).imp (Nat.zero_add n) ?_
  rintro i pc hi hj (⟨hlt, -⟩ | ⟨-, h⟩)
  · omega
  · exact h

theorem Confines.thenQuiet (hx : Confines x n P) (hf : ∀ a, Quiet (f a) 0) :
    Confines (x >>= f) n P := by
  refine (hx.bind fun a => (hf a).confines).imp (Nat.add_zero n) ?_
  rintro i pc hi hj (⟨-, h⟩ | ⟨hle, -⟩)
  · exact h
  · omega

theorem emit_confines {op : Op} (hop : ¬ op.CanRaise) : Confines (emit op) 1 fun _ _ => False := by
  intro d a d' hrun
  cases hrun
  refine ⟨by simp only [Array.size_push], .push _ _, ?_⟩
  intro ops hops pc other hfrom hto hother hraise
  obtain rfl : pc = d.ops.size := by omega
  rw [hops.last] at hother
  cases hother
  exact hop hraise

theorem emitTake_confines {op : Op} (k : Nat) (hop : ¬ op.CanRaise) :
    Confines (emitTake op k) 1 fun _ _ => False :=
  (emit_confines hop).thenQuiet fun _ => adjust_quiet _

/-- Only the body of a loop matters, not the jump back to its head. -/
theorem loopBody_confines {top finish : Label} {kept : Nat} {body : Drafting Unit}
    (h : Confines body n P) :
    Confines (loopBody top finish kept body) (n + 1) fun i pc => pc < i + n ∧ P i pc := by
  simp only [loopBody]
  refine (Notes.confinesThen (Quiet.modify (by intro _; rfl) (by intro _; rfl)) fun _ =>
    h.bind fun _ => (emit_confines (Op.jump_safe top)).thenQuiet fun _ =>
      ((Quiet.modify (by intro _; rfl) (by intro _; rfl)).bind fun _ =>
        (place_quiet finish).bind fun _ => adjust_quiet _)).imp rfl ?_
  rintro i pc hi hj (⟨hlt, h⟩ | ⟨-, h⟩)
  · exact ⟨hlt, h⟩
  · exact h.elim

/-- Taking the error off the stack raises none. -/
theorem receive_confines (name : Option Name) (σ : Shape) {k : Drafting Unit}
    (h : Confines k n P) :
    Confines (do
      adjust (· + 1)
      if let some name := name then emit (.store name)
      emitTake .pop 1
      k) ((receiveShapes σ name).length + n) fun i pc =>
        i + (receiveShapes σ name).length ≤ pc ∧ P (i + (receiveShapes σ name).length) pc := by
  cases name with
  | none =>
    refine ((adjust_quiet _).confinesThen fun _ =>
      (emitTake_confines 1 Op.pop_safe).bind fun _ => h).imp rfl ?_
    rintro i pc hi hj (⟨-, h⟩ | h)
    · exact h.elim
    · exact h
  | some name =>
    refine ((adjust_quiet _).confinesThen fun _ => (emit_confines (Op.store_safe name)).bind fun _ =>
      (emitTake_confines 1 Op.pop_safe).bind fun _ => h).imp ?_ ?_
    · simp only [receiveShapes, List.length_cons, List.length_nil]
      omega
    · rintro i pc hi hj (⟨-, h⟩ | ⟨-, ⟨-, h⟩ | h⟩)
      · exact h.elim
      · exact h.elim
      · exact h

mutual

/-- Wherever a statement can raise an error, one of the statements in it gives the line. -/
theorem statement_confines (stmt : Stmt) (σ : Shape) :
    Confines (statement stmt) (stmt.shapes σ).length fun i pc => Traced (stmt.extents σ i) pc := by
  obtain ⟨line, column, node⟩ := stmt
  simp only [statement, Stmt.shapes]
  refine ((startStatement_notes line).confinesThen fun _ => statementNode_confines node σ).imp rfl ?_
  intro i pc hi hj h
  simp only [Stmt.extents]
  exact h.traced (stmtNode_within node σ i) hi hj

theorem statementNode_confines (node : StmtNode) (σ : Shape) :
    Confines (statementNode node) (node.shapes σ).length fun i pc =>
      Placed (node.extents σ i) (node.later σ i) pc := by
  cases node with
  | branch branches otherwise =>
    cases otherwise with
    | none =>
      simp only [statementNode]
      refine ((newLabel_quiet none).confinesThen fun finish =>
        (arms_confines finish branches σ).thenQuiet fun _ => place_quiet finish).imp ?_ ?_
      · simp only [StmtNode.shapes, List.append_nil]
      · rintro i pc hi hj (h | ⟨hcondition, hnone⟩)
        · simp only [StmtNode.extents, List.append_nil]
          exact .inside h
        · simp only [StmtNode.shapes, List.append_nil] at hj
          exact placed_condition (E := []) (j := 0) branches nofun hj hcondition hnone
    | some body =>
      simp only [statementNode]
      refine ((newLabel_quiet none).confinesThen fun finish =>
        (arms_confines finish branches σ).bind fun _ =>
        (block_confines body σ).thenQuiet fun _ => place_quiet finish).imp ?_ ?_
      · simp only [StmtNode.shapes, List.length_append]
      · simp only [StmtNode.extents]
        rintro i pc hi hj (⟨hlt, h | ⟨hcondition, hnone⟩⟩ | ⟨hle, h⟩)
        · exact .inside (h.append_left (block_within body σ _) hlt)
        · exact placed_condition branches (block_within body σ _) hlt hcondition hnone
        · exact .inside (h.append_right (arms_within branches σ i) hle)
  | forList name source body =>
    simp only [statementNode]
    refine ((expr_quiet source σ).confines.bind fun _ => (emitPush_quiet _).confines.bind fun _ =>
      (newLabel_quiet _).confinesThen fun top => (newLabel_quiet _).confinesThen fun finish =>
      (place_quiet top).confinesThen fun _ => (emit_quiet _).confines.bind fun _ =>
      loopBody_confines (block_confines body (σ.up 2))).imp ?_ ?_
    · simp only [StmtNode.shapes, List.length_append, List.length_cons, List.length_nil]; omega
    · intro i pc hi hj h
      simp only [StmtNode.extents]
      rcases h with ⟨hlt, -⟩ | ⟨-, ⟨hlt, -⟩ | ⟨-, ⟨hlt, -⟩ | ⟨-, -, h⟩⟩⟩
      · exact .of_within (block_within body _ _) (by omega)
      · exact .of_within (block_within body _ _) (by omega)
      · exact .of_within (block_within body _ _) (by omega)
      · exact .inside h
  | forRange name first last body =>
    simp only [statementNode]
    refine ((expr_quiet first σ).confines.bind fun _ =>
      (expr_quiet last (σ.up 1)).confines.bind fun _ =>
      (newLabel_quiet _).confinesThen fun top => (newLabel_quiet _).confinesThen fun finish =>
      (place_quiet top).confinesThen fun _ => (emit_quiet _).confines.bind fun _ =>
      loopBody_confines (block_confines body (σ.up 2))).imp ?_ ?_
    · simp only [StmtNode.shapes, List.length_append, List.length_cons, List.length_nil]; omega
    · intro i pc hi hj h
      simp only [StmtNode.extents]
      rcases h with ⟨hlt, -⟩ | ⟨-, ⟨hlt, -⟩ | ⟨-, ⟨hlt, -⟩ | ⟨-, -, h⟩⟩⟩
      · exact .of_within (block_within body _ _) (by omega)
      · exact .of_within (block_within body _ _) (by omega)
      · exact .of_within (block_within body _ _) (by omega)
      · exact .inside h
  | «while» condition body =>
    simp only [statementNode]
    refine ((newLabel_quiet none).confinesThen fun top =>
      (newLabel_quiet none).confinesThen fun finish => (place_quiet top).confinesThen fun _ =>
      (expr_quiet condition σ).confines.bind fun _ => (emitTake_quiet _ 1).confines.bind fun _ =>
      loopBody_confines (block_confines body σ)).imp ?_ ?_
    · simp only [StmtNode.shapes, List.length_append, List.length_cons, List.length_nil]; omega
    · intro i pc hi hj h
      simp only [StmtNode.extents]
      rcases h with ⟨hlt, -⟩ | ⟨-, ⟨hlt, -⟩ | ⟨-, -, h⟩⟩
      · exact .of_within (block_within body _ _) (by omega)
      · exact .of_within (block_within body _ _) (by omega)
      · exact .inside h
  | «try» body handlers =>
    simp only [statementNode]
    refine ((catches_quiet handlers σ).confines.bind_of fun labels hlabels =>
      (adjust_quiet _).confinesThen fun _ => (newLabel_quiet none).confinesThen fun finish =>
      (emit_quiet _).confines.bind fun _ =>
      (Quiet.modify (by intro _; rfl) (by intro _; rfl)).confinesThen fun _ =>
      (block_confines body σ.enter).bind fun _ =>
      (Quiet.modify (by intro _; rfl) (by intro _; rfl)).confinesThen fun _ =>
      (emit_confines (Op.leaveTry_safe finish)).bind fun _ =>
      (handlerBodies_confines finish handlers labels (catches_length hlabels) σ).thenQuiet fun _ =>
        place_quiet finish).imp ?_ ?_
    · simp only [StmtNode.shapes, List.length_append, List.length_cons]; omega
    · intro i pc hi hj h
      -- The handlers are prepared, and the body is entered, before any nested statement.
      have hbefore (hlt : pc < i + (catchesShapes σ handlers).length + 1) :
          Placed (StmtNode.extents σ i (.try body handlers)) [] pc := by
        simp only [StmtNode.extents]
        refine .before fun e he => ?_
        rcases List.mem_append.mp he with he | he
        · exact (block_within body _ _ e he).lt_first hlt
        · exact (handlers_within handlers σ _ e he).lt_first (by omega)
      simp only [StmtNode.extents] at hbefore ⊢
      rcases h with ⟨hlt, -⟩ | ⟨-, ⟨hlt, -⟩ | ⟨-, ⟨hlt, h⟩ | ⟨-, ⟨-, h⟩ | ⟨hle, h⟩⟩⟩⟩
      · exact hbefore (Nat.lt_succ_of_lt hlt)
      · exact hbefore hlt
      · exact .inside (h.append_left (handlers_within handlers σ _) (Nat.lt_succ_of_lt hlt))
      · exact h.elim
      · exact .inside (h.append_right (block_within body _ _) (Nat.le_of_succ_le hle))
  | «break» | «continue» =>
    simp only [statementNode]
    refine (leaveLoop_quiet _ _ _).confines.imp rfl ?_
    intro i pc hi hj h
    simp only [StmtNode.extents]
    exact .before nofun
  | «return» value =>
    cases value with
    | none =>
      simp only [statementNode]
      refine (emit_quiet _).confines.imp rfl ?_
      intro i pc hi hj h
      simp only [StmtNode.extents]
      exact .before nofun
    | some e =>
      simp only [statementNode]
      refine ((expr_quiet e σ).bind fun _ => emitTake_quiet _ 1).confines.imp ?_ ?_
      · simp only [StmtNode.shapes, List.length_append, List.length_cons, List.length_nil]
      · intro i pc hi hj h
        simp only [StmtNode.extents]
        exact .before nofun
  | expr e =>
    simp only [statementNode]
    refine ((expr_quiet e σ).bind fun _ => emitTake_quiet _ 1).confines.imp ?_ ?_
    · simp only [StmtNode.shapes, List.length_append, List.length_cons, List.length_nil]
    · intro i pc hi hj h
      simp only [StmtNode.extents]
      exact .before nofun

theorem block_confines (stmts : List Stmt) (σ : Shape) :
    Confines (block stmts) (blockShapes σ stmts).length fun i pc =>
      Traced (blockExtents σ i stmts) pc := by
  match stmts with
  | [] =>
    simp only [block]
    refine (Quiet.pure ()).confines.imp rfl ?_
    intro i pc hi hj
    simp only [blockShapes, List.length_nil] at hj
    omega
  | stmt :: rest =>
    simp only [block]
    refine ((statement_confines stmt σ).bind fun _ => block_confines rest σ).imp ?_ ?_
    · rw [blockShapes, List.length_append]
    · rintro i pc hi hj (⟨hlt, h⟩ | ⟨hle, h⟩)
      · exact h.append_left (block_within rest σ _) hlt
      · exact h.append_right (stmt_within stmt σ i) hle

theorem arms_confines (finish : Label) (branches : List (Expr × List Stmt)) (σ : Shape) :
    Confines (arms finish branches) (armsShapes σ branches).length fun i pc =>
      Traced (armsExtents σ i branches) pc ∨
        ((∃ r ∈ conditions σ i branches, r.1 ≤ pc ∧ pc < r.2) ∧
          ∀ e ∈ armsExtents σ i branches, ¬ e.Covers pc) := by
  match branches with
  | [] =>
    simp only [arms]
    refine (Quiet.pure ()).confines.imp rfl ?_
    intro i pc hi hj
    simp only [armsShapes, List.length_nil] at hj
    omega
  | (condition, body) :: rest =>
    simp only [arms]
    refine ((expr_quiet condition σ).confines.bind fun _ => (newLabel_quiet none).confinesThen fun next =>
      (emitTake_confines 1 (Op.branch_safe next)).bind fun _ => (block_confines body σ).bind fun _ =>
      (emit_confines (Op.jump_safe finish)).bind fun _ => (place_quiet next).confinesThen fun _ =>
      arms_confines finish rest σ).imp ?_ ?_
    · simp only [armsShapes, List.length_append, List.length_cons]
      omega
    · simp only [armsExtents, conditions]
      intro i pc hi hj h
      rcases h with ⟨hlt, -⟩ | ⟨-, ⟨-, h⟩ | ⟨-, ⟨hlt, h⟩ | ⟨-, ⟨-, h⟩ | ⟨hle, h | ⟨⟨r, hr, hpc⟩, hnone⟩⟩⟩⟩⟩
      · refine .inr ⟨⟨_, List.mem_cons_self, hi, hlt⟩, fun e he => ?_⟩
        rcases List.mem_append.mp he with he | he
        · exact (block_within body σ _ e he).not_covers_before (by omega)
        · exact (arms_within rest σ _ e he).not_covers_before (by omega)
      · exact h.elim
      · exact .inl (h.append_left (arms_within rest σ _) (Nat.lt_succ_of_lt hlt))
      · exact h.elim
      · exact .inl (h.append_right (block_within body σ _) (Nat.le_of_succ_le hle))
      · refine .inr ⟨⟨r, List.mem_cons_of_mem _ hr, hpc⟩, fun e he => ?_⟩
        rcases List.mem_append.mp he with he | he
        · exact (block_within body σ _ e he).not_covers_after (Nat.le_of_succ_le hle)
        · exact hnone e he

theorem handlerBodies_confines (finish : Label) (handlers : List Handler) (labels : List Label)
    (hlabels : labels.length = handlers.length) (σ : Shape) :
    Confines (handlerBodies finish handlers labels) (handlersShapes σ handlers).length fun i pc =>
      Traced (handlersExtents σ i handlers) pc := by
  match handlers, labels with
  | [], [] =>
    simp only [handlerBodies]
    refine (Quiet.pure ()).confines.imp rfl ?_
    intro i pc hi hj
    simp only [handlersShapes, List.length_nil] at hj
    omega
  | [], _ :: _ => exact nomatch hlabels
  | _ :: _, [] => exact nomatch hlabels
  | .mk name codes body :: [], label :: labels =>
    simp only [handlerBodies, List.isEmpty_nil, Bool.not_true, Bool.false_eq_true, if_false]
    refine ((place_quiet label).confinesThen fun _ => receive_confines name σ
      ((block_confines body σ).thenQuiet fun _ => Quiet.pure ())).imp ?_ ?_
    · simp only [handlersShapes, List.length_append, List.isEmpty_nil, if_true, List.length_nil]
      omega
    · simp only [handlersExtents, List.append_nil]
      rintro i pc hi hj ⟨-, h⟩
      exact h
  | .mk name codes body :: handler :: rest, label :: labels =>
    rw [handlerBodies]
    simp only [List.isEmpty_cons, Bool.not_false, if_true]
    refine ((place_quiet label).confinesThen fun _ => receive_confines name σ
      ((block_confines body σ).bind fun _ => (emit_confines (Op.jump_safe finish)).bind fun _ =>
        handlerBodies_confines finish (handler :: rest) labels (Nat.succ.inj hlabels) σ)).imp ?_ ?_
    · rw [handlersShapes]
      simp only [List.length_append, List.isEmpty_cons, Bool.false_eq_true, if_false,
        List.length_cons]
      omega
    · intro i pc hi hj h
      rw [handlersExtents]
      rcases h with ⟨-, ⟨hlt, h⟩ | ⟨-, ⟨-, h⟩ | ⟨hle, h⟩⟩⟩
      · exact h.append_left (handlers_within (handler :: rest) σ _) (Nat.lt_succ_of_lt hlt)
      · exact h.elim
      · exact h.append_right (block_within body σ _) (Nat.le_of_succ_le hle)

end

end Draft

namespace Script

/-- Wherever a compiled script can raise an error, one of its statements gives the line.  The last
instruction, which belongs to no statement, raises none. -/
theorem SyntaxTree.traced {tree : SyntaxTree} {p : Program} (h : tree.compile = .ok p) {pc : Nat}
    {op : Op} (hop : p.ops[pc]? = some op) (hraise : op.CanRaise) : Traced tree.extents pc := by
  obtain ⟨d, hblock, rfl⟩ := SyntaxTree.compile_ok h
  obtain ⟨hsize, -, hops⟩ := Draft.block_confines tree.statements (.plain 0 []) {} () d hblock
  have hempty : ({} : Draft).ops.size = 0 := rfl
  rw [hempty, Nat.zero_add] at hsize hops
  have hlt : pc < (d.ops.push .finish).size := (Array.getElem?_eq_some_iff.mp hop).1
  rw [Array.size_push] at hlt
  by_cases hpc : pc < d.ops.size
  · rw [hsize] at hpc
    exact hops _ (.push _ _) pc op (Nat.zero_le pc) hpc hop hraise
  · obtain rfl : pc = d.ops.size := by omega
    have hlast : (d.ops.push .finish)[d.ops.size]? = some .finish := (Initial.refl _).last
    have hop : (d.ops.push .finish)[d.ops.size]? = some op := hop
    rw [hlast] at hop
    cases hop
    exact absurd hraise Op.finish_safe

end Script

end Lineage
