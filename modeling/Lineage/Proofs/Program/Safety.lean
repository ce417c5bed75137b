/-
  Lineage.Proofs.Program.Safety

  Compiled code never breaks the machine.

  Two values are on the stack for every `for` loop around a statement, and one scope is
  open for every `try` body around it (`Start.Fits`).  The induction is on the tree and
  follows `Stmt.starts`; nothing of the code itself is needed, only that the shapes of
  the tree are laid beside it.

  The shapes of a script check its program (`SyntaxTree.checked`), whatever script was
  compiled.  So every call of the program is as the shapes say in every state that a
  machine comes to, by whatever calls, errors and jumps (`Reaches.sound`); what the
  shapes say at the start of a statement is known from the tree (`SyntaxTree.starts_fit`).
-/
import Lineage.Machine.Call
import Lineage.Proofs.Machine.Reachable
import Lineage.Proofs.Program.Spans
import Lineage.Proofs.Program.StmtChecks
import Lineage.Proofs.Script.Reading

namespace Lineage.Script

section

variable {S : List Shape}

/-- A place has the shape that the statement which starts there should have. -/
def Start.Fits (S : List Shape) (s : Start) : Prop :=
  ∃ scopes : List Nat, scopes.length = s.tries ∧ S[s.position]? = some (.plain (2 * s.fors) scopes)

/-! ## Statements start in their shapes -/

mutual

theorem stmt_starts (stmt : Stmt) {i fors tries : Nat} {scopes : List Nat}
    (hscopes : scopes.length = tries)
    (hlaid : Laid S i (stmt.shapes (.plain (2 * fors) scopes)))
    (hexit : S[i + (stmt.shapes (.plain (2 * fors) scopes)).length]? =
      some (.plain (2 * fors) scopes)) :
    ∀ s ∈ stmt.starts (.plain (2 * fors) scopes) i fors tries, s.Fits S := by
  have hhead := stmt_head stmt hlaid hexit
  obtain ⟨line, column, node⟩ := stmt
  simp only [Stmt.shapes] at hlaid hexit
  simp only [Stmt.starts]
  intro s hs
  rcases List.mem_cons.mp hs with rfl | hs
  · exact ⟨scopes, hscopes, hhead⟩
  · exact stmtNode_starts node hscopes hlaid hexit s hs

theorem stmtNode_starts (node : StmtNode) {i fors tries : Nat} {scopes : List Nat}
    (hscopes : scopes.length = tries)
    (hlaid : Laid S i (node.shapes (.plain (2 * fors) scopes)))
    (hexit : S[i + (node.shapes (.plain (2 * fors) scopes)).length]? =
      some (.plain (2 * fors) scopes)) :
    ∀ s ∈ node.starts (.plain (2 * fors) scopes) i fors tries, s.Fits S := by
  cases node with
  | branch arms otherwise =>
    cases otherwise with
    | none =>
      simp only [StmtNode.shapes, List.append_nil] at hlaid hexit
      simp only [StmtNode.starts, List.append_nil]
      exact arms_starts arms hscopes hlaid hexit
    | some body =>
      simp only [StmtNode.shapes, laid_append, List.length_append] at hlaid hexit
      rw [← Nat.add_assoc] at hexit
      simp only [StmtNode.starts]
      intro s hs
      rcases List.mem_append.mp hs with hs | hs
      · exact arms_starts arms hscopes hlaid.1 (block_head body hlaid.2 hexit) s hs
      · exact block_starts body hscopes hlaid.2 hexit s hs
  | forList name source body =>
    -- Two more values are on the stack in the body of the loop.
    simp only [StmtNode.shapes, laid_append, Laid] at hlaid
    obtain ⟨-, -, -, hlaidb, hm, -⟩ := hlaid
    simp only [StmtNode.starts]
    show ∀ s ∈ blockStarts (.plain (2 * (fors + 1)) scopes) _ (fors + 1) tries body, s.Fits S
    apply block_starts body hscopes
    · exact hlaidb
    · exact hm
  | forRange name first last body =>
    simp only [StmtNode.shapes, laid_append, Laid] at hlaid
    obtain ⟨-, -, -, hlaidb, hm, -⟩ := hlaid
    simp only [StmtNode.starts]
    show ∀ s ∈ blockStarts (.plain (2 * (fors + 1)) scopes) _ (fors + 1) tries body, s.Fits S
    apply block_starts body hscopes
    · exact hlaidb
    · exact hm
  | «while» condition body =>
    simp only [StmtNode.shapes, laid_append, Laid] at hlaid
    simp only [StmtNode.starts]
    exact block_starts body hscopes hlaid.2.2.1 hlaid.2.2.2.1
  | «try» body handlers =>
    simp only [StmtNode.shapes, laid_append, Laid, List.length_append, List.length_cons]
      at hlaid hexit
    obtain ⟨-, -, hlaidb, hm, hlaidh⟩ := hlaid
    simp only [StmtNode.starts]
    intro s hs
    rcases List.mem_append.mp hs with hs | hs
    · -- One more scope is open in the body.
      have hopen : (2 * fors :: scopes).length = tries + 1 := congrArg (· + 1) hscopes
      exact block_starts body hopen hlaidb hm s hs
    · refine handlers_starts handlers hscopes hlaidh ?_ s hs
      rw [← hexit]
      congr 1
      omega
  | «break» | «continue» | «return» value | expr e =>
    simp only [StmtNode.starts]
    intro s hs
    cases hs

theorem block_starts (stmts : List Stmt) {i fors tries : Nat} {scopes : List Nat}
    (hscopes : scopes.length = tries)
    (hlaid : Laid S i (blockShapes (.plain (2 * fors) scopes) stmts))
    (hexit : S[i + (blockShapes (.plain (2 * fors) scopes) stmts).length]? =
      some (.plain (2 * fors) scopes)) :
    ∀ s ∈ blockStarts (.plain (2 * fors) scopes) i fors tries stmts, s.Fits S := by
  match stmts with
  | [] =>
    intro s hs
    simp only [blockStarts] at hs
    cases hs
  | stmt :: rest =>
    simp only [blockShapes, laid_append, List.length_append] at hlaid hexit
    rw [← Nat.add_assoc] at hexit
    simp only [blockStarts]
    intro s hs
    rcases List.mem_append.mp hs with hs | hs
    · exact stmt_starts stmt hscopes hlaid.1 (block_head rest hlaid.2 hexit) s hs
    · exact block_starts rest hscopes hlaid.2 hexit s hs

theorem arms_starts (arms : List (Expr × List Stmt)) {i fors tries : Nat} {scopes : List Nat}
    (hscopes : scopes.length = tries)
    (hlaid : Laid S i (armsShapes (.plain (2 * fors) scopes) arms))
    (hexit : S[i + (armsShapes (.plain (2 * fors) scopes) arms).length]? =
      some (.plain (2 * fors) scopes)) :
    ∀ s ∈ armsStarts (.plain (2 * fors) scopes) i fors tries arms, s.Fits S := by
  match arms with
  | [] =>
    intro s hs
    simp only [armsStarts] at hs
    cases hs
  | (condition, body) :: rest =>
    simp only [armsShapes, laid_append, Laid, List.length_append, List.length_cons]
      at hlaid hexit
    obtain ⟨-, -, hlaidb, hm, hlaidr⟩ := hlaid
    simp only [armsStarts]
    intro s hs
    rcases List.mem_append.mp hs with hs | hs
    · exact block_starts body hscopes hlaidb hm s hs
    · refine arms_starts rest hscopes hlaidr ?_ s hs
      rw [← hexit]
      congr 1
      omega

theorem handlers_starts (handlers : List Handler) {i fors tries : Nat} {scopes : List Nat}
    (hscopes : scopes.length = tries)
    (hlaid : Laid S i (handlersShapes (.plain (2 * fors) scopes) handlers))
    (hexit : S[i + (handlersShapes (.plain (2 * fors) scopes) handlers).length]? =
      some (.plain (2 * fors) scopes)) :
    ∀ s ∈ handlersStarts (.plain (2 * fors) scopes) i fors tries handlers, s.Fits S := by
  match handlers with
  | [] =>
    intro s hs
    simp only [handlersStarts] at hs
    cases hs
  | .mk name codes body :: rest =>
    simp only [handlersStarts]
    intro s hs
    by_cases hlast : rest.isEmpty = true
    · -- The last body runs on to the end of the statement.
      obtain rfl := List.isEmpty_iff.mp hlast
      simp only [handlersShapes, laid_append, List.isEmpty_nil, if_true, List.append_nil,
        List.length_append] at hlaid hexit
      rw [← Nat.add_assoc] at hexit
      simp only [handlersStarts, List.append_nil] at hs
      exact block_starts body hscopes hlaid.2 hexit s hs
    · simp only [handlersShapes, hlast, Bool.false_eq_true, if_false, laid_append, Laid,
        List.length_append, List.length_cons] at hlaid hexit
      obtain ⟨-, hlaidb, hm, hlaidr⟩ := hlaid
      rcases List.mem_append.mp hs with hs | hs
      · exact block_starts body hscopes hlaidb hm s hs
      · refine handlers_starts rest hscopes hlaidr ?_ s hs
        rw [← hexit]
        congr 1
        omega

end

end

/-! ## Scripts -/

/-- The shapes of the program of a script. -/
def SyntaxTree.shapes (tree : SyntaxTree) : List Shape :=
  blockShapes (.plain 0 []) tree.statements ++ [.plain 0 []]

/-- There is a shape for every instruction. -/
theorem SyntaxTree.shapes_length {tree : SyntaxTree} {p : Program} (h : tree.compile = .ok p) :
    tree.shapes.length = p.ops.size := by
  obtain ⟨d, hblock, rfl⟩ := SyntaxTree.compile_ok h
  obtain ⟨hsize, -⟩ := Draft.block_notes tree.statements (.plain 0 []) 0 0 {} () d hblock
  have hempty : ({} : Draft).ops.size = 0 := rfl
  rw [hempty, Nat.zero_add] at hsize
  simp only [SyntaxTree.shapes, Draft.program, Array.size_push, List.length_append,
    List.length_singleton, hsize]

theorem SyntaxTree.shapes_laid (tree : SyntaxTree) :
    Laid tree.shapes 0 (blockShapes (.plain 0 []) tree.statements) ∧
      tree.shapes[(blockShapes (.plain 0 []) tree.statements).length]? = some (.plain 0 []) := by
  have h : Laid tree.shapes 0 tree.shapes := laid_self [] tree.shapes
  rw [SyntaxTree.shapes, laid_append, Nat.zero_add] at h
  exact ⟨h.1, h.2.1⟩

/-- Every statement of a script starts in its shape. -/
theorem SyntaxTree.starts_fit (tree : SyntaxTree) : ∀ s ∈ tree.starts, s.Fits tree.shapes := by
  obtain ⟨hlaid, hexit⟩ := tree.shapes_laid
  rw [← Nat.zero_add (blockShapes _ _).length] at hexit
  show ∀ s ∈ blockStarts (.plain (2 * 0) []) 0 0 0 tree.statements, s.Fits tree.shapes
  apply block_starts tree.statements List.length_nil
  · exact hlaid
  · exact hexit

/-- The code of a script is right for the shapes of the script, all of it. -/
theorem SyntaxTree.checked {tree : SyntaxTree} {p : Program} (hcode : p.CodeOf tree.statements)
    {C : Value → Prop} (hall : Stmt.AllIn C p.HasVariable tree.statements) :
    p.Checked tree.shapes := by
  obtain ⟨n, hat, hfinish⟩ := hcode
  obtain ⟨hlaid, hexit⟩ := tree.shapes_laid
  have hn : n = (blockShapes (.plain 0 []) tree.statements).length := by
    have h := block_length tree.statements hat (.plain 0 [])
    omega
  rw [← hn] at hexit
  have hbears : (Shape.plain 0 []).Bears 0 := ⟨Nat.le_refl 0, fun _ h => nomatch h⟩
  have hsite : Site.Agrees ⟨0, 0, none⟩ tree.shapes 0 [] := ⟨rfl, rfl, fun _ h => nomatch h⟩
  have hsits : Sits p tree.shapes 0 (n + 1) :=
    (block_sits tree.statements hall hat hbears hsite hlaid hexit).append
      (Sits.one hfinish hexit ⟨hbears, trivial, trivial, fun _ h => nomatch h⟩)
  have hhead : tree.shapes[0]? = some (.plain 0 []) := by
    refine block_head tree.statements hlaid ?_
    rw [Nat.zero_add, ← hn]
    exact hexit
  refine ⟨hhead, fun pc op σ hop hσ => hsits pc op σ (Nat.zero_le pc) ?_ hop hσ⟩
  have hlength : tree.shapes.length = n + 1 := by
    rw [SyntaxTree.shapes, List.length_append, ← hn, List.length_singleton]
  have hlt := (List.getElem?_eq_some_iff.mp hσ).1
  omega

end Lineage.Script

namespace Lineage

open Script

/-- A program that was compiled from a script, and whose numbers fit in 16 bits. -/
def Program.Compiled (p : Program) : Prop :=
  p.Fits ∧ ∃ source customErrors, Program.compile source customErrors = .ok p

/-- What the next instruction takes is on the stack, and what it refers to is there. -/
structure Frame.Safe (f : Frame) : Prop where
  operands : ∃ op, f.program.ops[f.pc]? = some op ∧ op.operands ≤ f.stack.length ∧
    op.Resolves f.program
  slots : ∀ name, f.program.HasVariable name → name.slot.toNat < f.env.size
  steps : f.step ≠ .fault

/-- The stacks are as deep as the loops and `try` bodies around a statement. -/
structure Frame.Nested (f : Frame) (s : Start) : Prop where
  stack : f.stack.length = 2 * s.fors
  scopes : f.scopes.length = s.tries

/-! ## Programs that were compiled -/

/-- A script that was compiled was read before. -/
theorem Program.compile_ok {source : String} {customErrors : Bool} {p : Program}
    (h : Program.compile source customErrors = .ok p) :
    ∃ tree, SyntaxTree.read source customErrors = .ok tree ∧ tree.compile = .ok p := by
  have hcompile : Program.compile source customErrors =
      (SyntaxTree.read source customErrors >>= SyntaxTree.compile) := rfl
  rw [hcompile] at h
  cases hread : SyntaxTree.read source customErrors with
  | error e =>
    rw [hread] at h
    exact nomatch (h : Except.error e = Except.ok p)
  | ok tree =>
    rw [hread] at h
    exact ⟨tree, rfl, h⟩

/-- The program of a script that was read is checked by the shapes of the script. -/
theorem Script.SyntaxTree.checked_of_read {source : String} {customErrors : Bool} {tree : SyntaxTree}
    {p : Program} (hread : SyntaxTree.read source customErrors = .ok tree)
    (hcompile : tree.compile = .ok p) (hfits : p.Fits) : p.Checked tree.shapes := by
  have hnames : tree.names = p.names := SyntaxTree.compile_names hcompile
  have hsound : tree.Sound := SyntaxTree.sound_of_read hread (hnames ▸ hfits.names)
  have hcode := hsound.codeOf hcompile hfits
  obtain ⟨C, -, hall⟩ := hsound
  rw [hnames] at hall
  exact SyntaxTree.checked hcode hall

theorem Program.Compiled.checked {p : Program} (h : p.Compiled) : ∃ S, p.Checked S := by
  obtain ⟨hfits, source, customErrors, hcompile⟩ := h
  obtain ⟨tree, hread, hcompile⟩ := Program.compile_ok hcompile
  exact ⟨tree.shapes, SyntaxTree.checked_of_read hread hcompile hfits⟩

/-! ## Frames with the shape of their place -/

namespace Frame

variable {f : Frame} {S : List Shape}

theorem Settled.safe (h : f.Settled S) (hp : f.program.Checked S)
    (hsize : S.length ≤ f.program.ops.size) : f.Safe where
  operands := by
    obtain ⟨σ, hplace, hhas⟩ := h
    have hlt : f.pc < f.program.ops.size :=
      Nat.lt_of_lt_of_le (List.getElem?_eq_some_iff.mp hplace).1 hsize
    have hop : f.program.ops[f.pc]? = some f.program.ops[f.pc] := Array.getElem?_eq_getElem hlt
    have hchecks := hp.each f.pc _ σ hop hplace
    refine ⟨_, hop, ?_, hchecks.resolves⟩
    rw [hhas.height]
    exact hchecks.bears.within
  slots := by
    obtain ⟨σ, -, hhas⟩ := h
    intro name hname
    exact Nat.lt_of_lt_of_le hname hhas.env
  steps := by
    intro hfault
    have hgood := step_good hp h
    rw [hfault] at hgood
    exact hgood

/-- At the start of a statement the stacks are as deep as the code around it. -/
theorem Settled.nested (h : f.Settled S) {s : Start} (hs : s.Fits S) (hpc : f.pc = s.position) :
    f.Nested s := by
  obtain ⟨σ, hplace, hhas⟩ := h
  obtain ⟨scopes, htries, hstart⟩ := hs
  rw [hpc, hstart] at hplace
  cases hplace
  exact ⟨hhas.height, hhas.scopes.length_eq.trans htries⟩

end Frame

/-- The handlers of open scopes start at labels that the program has. -/
theorem ScopesMatch.hasLabel {p : Program} {S : List Shape} {heights : List Nat}
    {scopes : List Scope} (h : ScopesMatch p S heights scopes) :
    ∀ scope ∈ scopes, ∀ c ∈ scope.handlers, p.HasLabel c.2 := by
  fun_induction ScopesMatch p S heights scopes with
  | case1 =>
    intro scope hscope
    cases hscope
  | case2 height heights scope scopes ih =>
    obtain ⟨-, -, hleads, hrest⟩ := h
    intro other hother c hc
    rcases List.mem_cons.mp hother with rfl | hother
    · exact (hleads c hc).hasLabel
    · exact ih hrest other hother c hc
  | case3 => exact h.elim

/-- Handlers start at labels that the program has, in whatever calls a sound machine has. -/
theorem Machine.Sound.handlers {m : Machine} (hm : m.Sound) {a : Activation}
    (ha : a ∈ m.running :: m.callers) {S : List Shape} (hp : a.frame.program.Checked S) :
    ∀ scope ∈ a.frame.scopes, ∀ c ∈ scope.handlers, a.frame.program.HasLabel c.2 := by
  rcases List.mem_cons.mp ha with rfl | ha
  · obtain ⟨σ, -, hhas⟩ := hm.running S hp
    exact hhas.scopes.hasLabel
  · obtain ⟨heights, hguarded⟩ := (hm.callers a ha S hp).guarded
    exact hguarded.scopes.hasLabel

/-! ## Compiled code is safe -/

/-- Take a program that was compiled and fits.  The script it comes from has been read, and what the
program notes of statements is where they start.  In every state of every run, whatever program it
starts with, a running call of the program is safe, and at the start of a statement its stacks are
as deep as the code around the statement; handlers of all its calls start at labels that it has.  A
step faults at most when some call is not of compiled code. -/
theorem compiled_code_safe {source : String} {customErrors : Bool} {p : Program}
    (hcompile : Program.compile source customErrors = .ok p) (hfits : p.Fits) :
    ∃ tree, SyntaxTree.read source customErrors = .ok tree ∧
      p.spans = tree.starts.map Start.span ∧
      ∀ (q : Program) (this definer : ObjectId) (method : String) (context : CallContext)
        (args : List Value) (w : World) (m : Machine) (w' : World),
        Machine.Reaches ⟨.start q this definer method context args, []⟩ w m w' →
          (m.running.frame.program = p → m.running.frame.Safe ∧
            ∀ s ∈ tree.starts, m.running.frame.pc = s.position → m.running.frame.Nested s) ∧
          (∀ a ∈ m.running :: m.callers, a.frame.program = p →
            ∀ scope ∈ a.frame.scopes, ∀ c ∈ scope.handlers, p.HasLabel c.2) ∧
          ((m.step w').1 = .halted .faulted →
            ∃ a ∈ m.running :: m.callers, ¬ a.frame.program.Compiled) := by
  obtain ⟨tree, hread, htree⟩ := Program.compile_ok hcompile
  have hchecked : p.Checked tree.shapes := SyntaxTree.checked_of_read hread htree hfits
  refine ⟨tree, hread, SyntaxTree.spans_eq htree, ?_⟩
  intro q this definer method context args w m w' hreaches
  have hm : m.Sound := hreaches.sound (Machine.start_sound ..)
  refine ⟨?_, ?_, ?_⟩
  · rintro rfl
    have hsettled := hm.running _ hchecked
    refine ⟨hsettled.safe hchecked (Nat.le_of_eq (SyntaxTree.shapes_length htree)), fun s hs hpc => ?_⟩
    exact hsettled.nested (tree.starts_fit s hs) hpc
  · rintro a ha rfl
    exact hm.handlers ha hchecked
  · intro hfault
    apply Classical.byContradiction
    intro hnone
    refine Machine.step_ne_faulted hm (fun a ha => ?_) w' hfault
    apply Program.Compiled.checked
    apply Classical.byContradiction
    intro ha'
    exact hnone ⟨a, ha, ha'⟩

/-- Whether a call of a script, after some instructions, starts a statement with this many `for`
loops and `try` bodies around it. -/
def comesTo (source : String) (steps fors tries : Nat) : Bool :=
  match build? source true with
  | none => false
  | some (tree, p) =>
    match p.rootCall.frame.after steps with
    | none => false
    | some f => tree.starts.any fun s => s.position == f.pc && s.fors == fors && s.tries == tries

theorem comesTo_spec {source : String} {steps fors tries : Nat}
    (h : comesTo source steps fors tries = true) :
    ∃ tree p f s, SyntaxTree.read source true = .ok tree ∧ tree.compile = .ok p ∧ p.Fits ∧
      p.rootCall.frame.after steps = some f ∧ s ∈ tree.starts ∧ f.pc = s.position ∧
      s.fors = fors ∧ s.tries = tries := by
  unfold comesTo at h
  split at h
  · cases h
  · rename_i tree p hbuild
    obtain ⟨hread, hcompile, hfits⟩ := build?_eq_some hbuild
    split at h
    · cases h
    · rename_i f hf
      obtain ⟨s, hs, h⟩ := List.any_eq_true.mp h
      simp only [Bool.and_eq_true, beq_iff_eq] at h
      exact ⟨tree, p, f, s, hread, hcompile, hfits, hf, hs, h.1.1.symm, h.1.2, h.2⟩

/-- A script with a `try` statement in a loop. -/
def guardedLoop : String :=
  "for i in [1..3] try x = i; except (E_DIV) return x; endtry endfor"

/-- In the body of that `try` statement two values are on the stack and one scope is open. -/
theorem compiled_code_safe_guardedLoop :
    ∃ p f, Program.compile guardedLoop true = .ok p ∧ p.rootCall.frame.after 7 = some f ∧
      f.Safe ∧ f.stack.length = 2 ∧ f.scopes.length = 1 := by
  obtain ⟨tree, p, f, s, hread, htree, hfits, hf, hs, hpc, hfors, htries⟩ :=
    comesTo_spec (show comesTo guardedLoop 7 1 1 = true by decide +kernel)
  have hcompile : Program.compile guardedLoop true = .ok p := by
    show (SyntaxTree.read guardedLoop true >>= SyntaxTree.compile) = .ok p
    rw [hread]
    exact htree
  obtain ⟨tree', hread', -, hsafe⟩ := compiled_code_safe hcompile hfits
  rw [hread] at hread'
  cases hread'
  obtain ⟨hprogram, hreaches⟩ := Machine.Reaches.of_after [] (World.initial (.memory {}) {}) hf
  obtain ⟨hframe, -, -⟩ := hsafe _ _ _ _ _ _ _ _ _ hreaches
  obtain ⟨hf', hnested⟩ := hframe hprogram
  have hstacks := hnested s hs hpc
  exact ⟨p, f, hcompile, hf, hf', hstacks.stack.trans (by rw [hfors]), hstacks.scopes.trans htries⟩

end Lineage
