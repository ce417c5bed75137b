/-
  Lineage.Proofs.World.Tracebacks

  What the trace of an error says.

  All along a run the calls that are open run programs that were compiled, and those that
  wait are past an instruction that can raise an error, the one that called
  (`Machine.Stocked`).  So when nothing takes an error, every call that is open stands at
  such an instruction, and the lines of the trace are those of these instructions.  By
  what is known of compiled scripts, each is the line of the statement that was executing,
  unless that is a branch which has come to the condition of a later arm.
-/
import Lineage.Proofs.Program.Lines
import Lineage.Proofs.Program.Safety
import Lineage.Proofs.World.Invocations

namespace Lineage

-- Nothing here depends on what the compiler makes of a source, or on how a run goes.
attribute [local irreducible] Program.compile Machine.run

open World

/-! ## Calls that wait -/

/-- The instruction that was carried out last can raise an error. -/
def Frame.Pending (f : Frame) : Prop :=
  0 < f.pc ∧ ∃ op, f.program.ops[f.pc - 1]? = some op ∧ op.CanRaise

/-- An instruction that raises an error, or asks for something, can raise an error. -/
theorem Frame.step_risky {f : Frame} (h : f.step.Risky) :
    ∃ op, f.program.ops[f.pc]? = some op ∧ op.CanRaise := by
  unfold Frame.step at h
  cases hop : f.program.ops[f.pc]? with
  | none =>
    rw [hop] at h
    exact h.elim
  | some op =>
    rw [hop] at h
    exact ⟨op, rfl, _, h⟩

/-- What has been asked for is awaited after the instruction that asked. -/
theorem Frame.pending_of_ask {f g : Frame} {r : Request} (h : f.step = .ask r g) : g.Pending := by
  have hrisky : f.step.Risky := by
    rw [h]
    trivial
  obtain ⟨op, hop, hraise⟩ := Frame.step_risky hrisky
  have hof := f.step_of
  have hpast := f.step_past
  rw [h] at hof hpast
  have hprogram : g.program = f.program := hof
  have hpc : g.pc = f.pc + 1 := hpast
  refine ⟨?_, op, ?_, hraise⟩
  · rw [hpc]
    exact Nat.succ_pos _
  · rw [hprogram, hpc, Nat.add_sub_cancel]
    exact hop

namespace Machine

/-- All open calls run programs with `P`, and those that wait have made a call. -/
structure Stocked (P : Program → Prop) (m : Machine) : Prop where
  programs : ∀ a ∈ m.stack, P a.frame.program
  waiting : ∀ a ∈ m.callers, a.frame.Pending

end Machine

/-- A machine that still runs is as it should be. -/
def Progress.Stocked (P : Program → Prop) : Progress → Prop
  | .running m => m.Stocked P
  | .halted _ => True

namespace Machine

variable {P : Program → Prop} {a : Activation} {callers : List Activation}

theorem Stocked.withFrame (h : Stocked P ⟨a, callers⟩) {f : Frame}
    (hf : f.program = a.frame.program) : Stocked P ⟨a.withFrame f, callers⟩ where
  programs := by
    intro b hb
    rcases List.mem_cons.mp hb with rfl | hb
    · rw [Activation.withFrame, hf]
      exact h.programs a List.mem_cons_self
    · exact h.programs b (List.mem_cons_of_mem _ hb)
  waiting := h.waiting

/-- The call that waits innermost goes on. -/
theorem Stocked.caller {caller : Activation} (h : Stocked P ⟨a, caller :: callers⟩) :
    Stocked P ⟨caller, callers⟩ where
  programs b hb := h.programs b (List.mem_cons_of_mem _ hb)
  waiting b hb := h.waiting b (List.mem_cons_of_mem _ hb)

theorem catchIn_stocked {e : ScriptError} {progress : Progress} (hm : Stocked P ⟨a, callers⟩)
    (h : catchIn e a callers = some progress) : progress.Stocked P := by
  unfold catchIn at h
  split at h
  · cases h
  · rename_i l f hf
    split at h
    · rename_i g hg
      cases h
      have hof := Frame.jump_of (f.push (.err e)) l
      rw [hg] at hof
      exact hm.withFrame (Eq.trans (b := f.program) hof (Frame.handler_program hf))
    · cases h
      trivial

/-- Wherever an error is taken, the calls further out are as before. -/
theorem unwind_stocked {e : ScriptError} {trace : List TraceFrame} (hm : Stocked P ⟨a, callers⟩) :
    (unwind e trace a callers).Stocked P := by
  induction callers generalizing a trace with
  | nil =>
    simp only [unwind]
    split
    · exact catchIn_stocked hm ‹_›
    · trivial
  | cons caller callers ih =>
    simp only [unwind]
    split
    · exact catchIn_stocked hm ‹_›
    · exact ih hm.caller

theorem respond_stocked (hm : Stocked P ⟨a, callers⟩) (action : ScriptAction Value) (w : World) :
    (serve.respond ⟨a, callers⟩ action w).1.Stocked P := by
  simp only [serve.respond, bind, StateT.bind]
  rcases action.run w with ⟨e | v, w₁⟩
  · exact unwind_stocked hm
  · exact hm.withFrame rfl

section

variable {S : Stock}

theorem serve_stocked (hm : Stocked S.programs ⟨a, callers⟩) (hpending : a.frame.Pending)
    (r : Request) {w : World} (hw : w.Stocked S) :
    (serve ⟨a, callers⟩ r w).1.Stocked S.programs := by
  cases r with
  | callMethod object name args =>
    have hentered := (enterMethod_attempts (served_stocked S) compiledMethod_stocked a callers.length
      object name args).run w hw
    simp only [serve, bind, StateT.bind]
    rcases hcall : (enterMethod a callers.length object name args).run w with ⟨e | callee, w₁⟩
    · exact unwind_stocked hm
    · rw [hcall] at hentered
      obtain ⟨hprogram, -⟩ := hentered
      refine ⟨fun b hb => ?_, fun b hb => ?_⟩
      · rcases List.mem_cons.mp hb with rfl | hb
        · exact hprogram
        · exact hm.programs b hb
      · rcases List.mem_cons.mp hb with rfl | hb
        · exact hpending
        · exact hm.waiting b hb
  | _ => exact respond_stocked hm _ w

/-- A step leaves the open calls as they should be, whatever it leaves or opens. -/
theorem step_stocked {m : Machine} (hm : m.Stocked S.programs) {w : World} (hw : w.Stocked S) :
    (m.step w).1.Stocked S.programs := by
  obtain ⟨a, callers⟩ := m
  have hof := a.frame.step_of
  simp only [step]
  cases hstep : a.frame.step with
  | next f =>
    rw [hstep] at hof
    exact hm.withFrame hof
  | raise e f =>
    rw [hstep] at hof
    exact unwind_stocked (hm.withFrame hof)
  | «return» v =>
    cases callers with
    | nil => trivial
    | cons caller callers => exact hm.caller.withFrame rfl
  | ask r f =>
    rw [hstep] at hof
    exact serve_stocked (hm.withFrame hof) (Frame.pending_of_ask hstep) r hw
  | fault => trivial

/-- Induction on the steps.  Scripts may set methods, so it has to be all the same what methods there
are. -/
theorem Reaches.stocked {m m' : Machine} {w w' : World} (h : Reaches m w m' w')
    (hall : ∀ d, S.methods d) (hm : m.Stocked S.programs) (hw : w.Stocked S) :
    m'.Stocked S.programs ∧ w'.Stocked S := by
  induction h with
  | start => exact ⟨hm, hw⟩
  | @step m₁ m₂ w₁ w₂ _ hstep ih =>
    obtain ⟨hm₁, hw₁⟩ := ih
    have hnext := step_stocked hm₁ hw₁
    have hkept := step_keeps (served_stocked S)
      (fun h name d => setMethod_stocked h name (hall d)) m₁ w₁ hw₁
    rw [hstep] at hnext hkept
    exact ⟨hnext, hkept⟩

end

end Machine

/-! ## The lines of a trace -/

/-- A line is that of the statement that started last before a place of a script.  It is that of the
innermost statement there, unless this is a branch which has come to the condition of a later arm. -/
def Script.SyntaxTree.Tells (tree : Script.SyntaxTree) (pc line : Nat) : Prop :=
  ∃ e f, Script.Told tree.extents pc e f ∧ line = f.line ∧ (¬ e.Resumes pc → line = e.line)

/-- The lines of a compiled script, wherever it can raise an error. -/
theorem Program.tells_of_compile {source : String} {customErrors : Bool} {p : Program}
    (h : Program.compile source customErrors = .ok p) :
    ∃ tree, Script.SyntaxTree.read source customErrors = .ok tree ∧
      ∀ pc op, p.ops[pc]? = some op → op.CanRaise → tree.Tells pc (p.lineOf pc) := by
  obtain ⟨tree, hread, htree⟩ := Program.compile_ok h
  refine ⟨tree, hread, fun pc op hop hraise => ?_⟩
  obtain ⟨e, f, htold⟩ := Script.SyntaxTree.traced htree hop hraise
  have hline : p.lineOf pc = f.line := by
    rw [Script.SyntaxTree.lineOf_eq htree, htold.last]
    rfl
  refine ⟨e, f, htold, hline, fun hfirst => ?_⟩
  rcases htold.nested with rfl | ⟨hresumes, -, -⟩
  · exact hline
  · exact absurd hresumes hfirst

/-- Any methods, and programs that were compiled. -/
def Stock.compiled (runtime : RuntimeSettings) : Stock where
  runtime := runtime
  methods _ := True
  programs p := ∃ source, Program.compile source runtime.customErrors = .ok p
  compiles m _ _ hp := ⟨m.source, hp⟩

/-- What a valid session keeps compiled was compiled. -/
theorem World.stocked_compiled {w : World} (hvalid : w.session.Valid) :
    w.Stocked (.compiled w.session.runtime) where
  toAllMethods := (stocked_any w).toAllMethods
  runtime := rfl
  compiled e he x hx := by
    obtain ⟨owner, m, -, -, hp⟩ := hvalid.compiled he hx
    exact ⟨m.source, hp⟩

namespace Machine

/-- The open calls, innermost first, each with the place of the instruction that it is carrying out.
A call that waits is past that instruction. -/
def executing (m : Machine) : List (Activation × Nat) :=
  (m.running, m.running.frame.pc) :: m.callers.map fun a => (a, a.frame.pc - 1)

/-- What the line of a place adds to a trace. -/
def lineAt (c : Activation × Nat) : TraceFrame :=
  ⟨c.1.this, c.1.definer, c.1.method, c.1.frame.program.lineOf c.2⟩

theorem lines_eq (m : Machine) : m.lines = m.executing.map lineAt := by
  rw [executing, List.map_cons, List.map_map]
  rfl

/-- When an error is raised, every open call is at an instruction that can raise one. -/
theorem Stocked.executing {P : Program → Prop} {m : Machine} (hm : m.Stocked P) {w w' : World}
    {x : Exception} (h : m.step w = (.halted (.raised x), w')) :
    ∀ c ∈ m.executing, P c.1.frame.program ∧
      ∃ op, c.1.frame.program.ops[c.2]? = some op ∧ op.CanRaise := by
  intro c hc
  rcases List.mem_cons.mp hc with rfl | hc
  · refine ⟨hm.programs _ List.mem_cons_self, Frame.step_risky ?_⟩
    -- No other step of a frame comes to an error.
    simp only [step] at h
    cases hstep : m.running.frame.step with
    | raise e f => trivial
    | ask r f => trivial
    | next f => rw [hstep] at h; cases h
    | «return» v =>
      rw [hstep] at h
      simp only [ret] at h
      cases hcallers : m.callers with
      | nil => rw [hcallers] at h; cases h
      | cons caller callers => rw [hcallers] at h; cases h
    | fault => rw [hstep] at h; cases h
  · obtain ⟨a, ha, rfl⟩ := List.mem_map.mp hc
    exact ⟨hm.programs a (List.mem_cons_of_mem _ ha), (hm.waiting a ha).2⟩

end Machine

namespace Invocation

/-- Wherever a compiled script can raise an error, its line is that of the innermost statement there,
except in the condition of a later arm of a branch: there it is that of the statement which started
last in the arms before, if there is one.  So it is for every line of the trace of an error that
leaves a run in a world that can be reached: there is one for each open call, and it is the line of the
instruction that the call is carrying out, at which its script can raise an error. -/
theorem lines_told {c : Invocation} {w w₁ : World} {a : Activation} (hw : w.Reachable)
    (hopens : c.opens.run w = (.ok a, w₁)) :
    (∀ source customErrors p, Program.compile source customErrors = .ok p →
      ∃ tree, Script.SyntaxTree.read source customErrors = .ok tree ∧
        ∀ pc op, p.ops[pc]? = some op → op.CanRaise → tree.Tells pc (p.lineOf pc)) ∧
    ∀ fuel e w₂, (c.run fuel).run w = (.error e, w₂) → ∃ x m w₃,
      e = .methodFailed a.this a.method (.exception x) ∧ Machine.Reaches ⟨a, []⟩ w₁ m w₃ ∧
      m.step w₃ = (.halted (.raised x), w₂) ∧ x.trace = m.executing.map Machine.lineAt ∧
      ∀ place ∈ m.executing, ∃ source tree op,
        Program.compile source w.session.runtime.customErrors = .ok place.1.frame.program ∧
        Script.SyntaxTree.read source w.session.runtime.customErrors = .ok tree ∧
        place.1.frame.program.ops[place.2]? = some op ∧ op.CanRaise ∧
        tree.Tells place.2 (Machine.lineAt place).line := by
  refine ⟨fun _ _ _ h => Program.tells_of_compile h, ?_⟩
  intro fuel e w₂ hfails
  rw [run_eq, run_bind, hopens] at hfails
  obtain ⟨x, hraised, rfl⟩ := finish_error hfails
  obtain ⟨m, w₃, hreaches, hlast⟩ := Machine.Reaches.of_run hraised
  have hstocked := World.stocked_compiled hw.coherent.session
  have hopened := c.opens_stocked (fun _ => trivial) w hstocked
  rw [hopens] at hopened
  obtain ⟨⟨-, hprogram⟩, hw₁⟩ := hopened
  have hstart : Machine.Stocked (Stock.compiled w.session.runtime).programs ⟨a, []⟩ :=
    ⟨fun b hb => List.mem_singleton.mp hb ▸ hprogram, nofun⟩
  obtain ⟨hm, -⟩ := hreaches.stocked (fun _ => trivial) hstart hw₁
  refine ⟨x, m, w₃, rfl, hreaches, hlast, ?_, fun place hplace => ?_⟩
  · rw [Machine.step_raised hlast, Machine.lines_eq]
  · obtain ⟨⟨source, hcompile⟩, op, hop, hraise⟩ := hm.executing hlast place hplace
    obtain ⟨tree, hread, htells⟩ := Program.tells_of_compile hcompile
    exact ⟨source, tree, op, hcompile, hread, hop, hraise, htells _ op hop hraise⟩

/-- An object with two methods, of which one calls the other and that divides by zero. -/
def divider : Record :=
  { Record.bare .root .nothing .epoch with
    methods := .ofList [("inner", { source := "x = 0;\nreturn 1 / x;" }),
      ("outer", { source := "x = 1;\nif (x)\n  return this:inner(x);\nendif" })] }

/-- A session that has loaded it. -/
def dividing : World :=
  (Operation.load true .root).after
    ((openSession {}).run (initial (.memory { records := [(.root, divider)] }) {})).2

theorem dividing_reachable : Reachable dividing := by
  have hfaithful : (Store.memory { records := [(.root, divider)] }).Faithful := by
    intro e he
    obtain rfl := List.mem_singleton.mp he
    rfl
  exact (Reachable.start _ {} hfaithful).operate (.load true .root) nofun

/-- Whether a run fails with an error whose trace has these lines. -/
def failsAt (c : Invocation) (fuel : Nat) (w : World) (lines : List Nat) : Bool :=
  match ((c.run fuel).run w).1 with
  | .error (.methodFailed _ _ (.exception x)) => x.trace.map TraceFrame.line == lines
  | _ => false

theorem failsAt_spec {c : Invocation} {fuel : Nat} {w : World} {lines : List Nat}
    (h : c.failsAt fuel w lines = true) : ∃ id name x w', x.trace.map TraceFrame.line = lines ∧
      (c.run fuel).run w = (.error (.methodFailed id name (.exception x)), w') := by
  unfold failsAt at h
  rcases hrun : (c.run fuel).run w with ⟨e | v, w'⟩
  · rw [hrun] at h
    split at h
    · rename_i heq
      cases heq
      exact ⟨_, _, _, w', eq_of_beq h, rfl⟩
    · cases h
  · rw [hrun] at h
    cases h

/-- The trace of that division has two lines: the second one of the method that divides, and the
third one of the method that calls it. -/
theorem lines_told_dividing :
    ∃ a w₁ x m w₂ w₃, (call ⟨0⟩ "outer" []).opens.run dividing = (.ok a, w₁) ∧
      Machine.Reaches ⟨a, []⟩ w₁ m w₂ ∧ m.step w₂ = (.halted (.raised x), w₃) ∧
      x.trace.map TraceFrame.line = [2, 3] ∧ x.trace = m.executing.map Machine.lineAt ∧
      ∀ place ∈ m.executing, ∃ tree : Script.SyntaxTree,
        tree.Tells place.2 (Machine.lineAt place).line := by
  obtain ⟨id, name, x, w₃, hlines, hfails⟩ :=
    failsAt_spec (show (call ⟨0⟩ "outer" []).failsAt 30 dividing [2, 3] = true by decide +kernel)
  have hopened : ((call ⟨0⟩ "outer" []).opens.run dividing).1.isOk = true := by decide +kernel
  rcases hopens : (call ⟨0⟩ "outer" []).opens.run dividing with ⟨e | a, w₁⟩
  · rw [hopens] at hopened
    cases hopened
  · obtain ⟨hprograms, hruns⟩ := lines_told dividing_reachable hopens
    obtain ⟨y, m, w₂, hxy, hreaches, hlast, htrace, hplaces⟩ := hruns 30 _ w₃ hfails
    cases hxy
    refine ⟨a, w₁, x, m, w₂, w₃, rfl, hreaches, hlast, hlines, htrace, fun place hplace => ?_⟩
    obtain ⟨source, -, op, hcompile, -, hop, hraise, -⟩ := hplaces place hplace
    obtain ⟨tree, -, htells⟩ := hprograms source _ _ hcompile
    exact ⟨tree, htells _ op hop hraise⟩

/-- A branch whose second condition divides by zero. -/
def branching : String := "if (0)\n  x = 1;\nelseif (1 / 0)\n  x = 2;\nendif"

/-- Whether a script divides at a place, where the innermost statement is on one line and the program
tells another one. -/
def mistells (source : String) (pc own told : Nat) : Bool :=
  match Script.build? source true with
  | none => false
  | some (tree, p) =>
    (match p.ops[pc]? with
      | some (.binary .div) => true
      | _ => false) &&
    (Script.innermost tree.extents pc).map Script.Extent.line == some own && p.lineOf pc == told

theorem mistells_spec {source : String} {pc own told : Nat} (h : mistells source pc own told = true) :
    ∃ tree p e, Script.build? source true = some (tree, p) ∧ p.ops[pc]? = some (.binary .div) ∧
      Script.innermost tree.extents pc = some e ∧ e.line = own ∧ p.lineOf pc = told := by
  unfold mistells at h
  split at h
  · cases h
  · rename_i tree p hbuild
    simp only [Bool.and_eq_true, beq_iff_eq, Option.map_eq_some_iff] at h
    obtain ⟨⟨hop, e, hinner, hown⟩, htold⟩ := h
    split at hop
    · exact ⟨tree, p, e, hbuild, ‹_›, hinner, hown, htold⟩
    · cases hop

/-- The division belongs to a statement that starts on the first line.  Its line, and that of the trace
when it fails, is the second one: that of the body of the first arm, which does not run. -/
theorem lines_stray :
    (∃ tree p e, Script.build? branching true = some (tree, p) ∧ p.ops[8]? = some (.binary .div) ∧
      Script.innermost tree.extents 8 = some e ∧ e.line = 1 ∧ p.lineOf 8 = 2) ∧
    ∃ id name x w', x.trace.map TraceFrame.line = [2] ∧
      ((eval .root branching).run 30).run dividing =
        (.error (.methodFailed id name (.exception x)), w') := by
  refine ⟨mistells_spec ?_, failsAt_spec ?_⟩
  · decide +kernel
  · decide +kernel

end Invocation

end Lineage
