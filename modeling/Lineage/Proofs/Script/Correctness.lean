/-
  Lineage.Proofs.Script.Correctness

  Compiling preserves meaning.

  A program that was made of a script halts exactly when the evaluation of the script
  ends, with the same result and in the same world (`compile_preserves`).  The script
  has to be sound, as every script that was read is.
-/
import Lineage.Proofs.Program.StatementPlacement
import Lineage.Proofs.Script.Reading
import Lineage.Proofs.Script.StmtSimulation

namespace Lineage

open Script Activation

/-- A call at the start of a program. -/
def Activation.Starts (a : Activation) (p : Program) (env : Env) : Prop :=
  a.frame = { program := p, env := env }

namespace Script

/-- The verdict on a point at which the statements of a script have ended. -/
theorem leaves_verdict {p : Program} {s : Scene} {n : Nat} (hfinish : p.ops[n]? = some .finish)
    {flow : Flow} {env : Env} {w : World} {c : Point}
    (hc : Leaves p ⟨0, 0, none⟩ n [] [] flow env w c) :
    Leads s c (.ended (Flow.verdict (.ok flow)) w) := by
  cases flow with
  | next =>
    obtain ⟨catches, kept, rfl⟩ := hc
    exact (Steps.return (frame_step hfinish)).leads
  | «break» => obtain ⟨loop, hloop, -⟩ := hc; cases hloop
  | «continue» => obtain ⟨loop, hloop, -⟩ := hc; cases hloop
  | «return» v =>
    obtain rfl := hc
    exact .refl s _

/-- A program that is the code of a tree, with a slot for each of its variables. -/
structure SyntaxTree.CodedBy (tree : SyntaxTree) (p : Program) : Prop where
  names : tree.names = p.names
  slotted : ∃ C, Stmt.AllIn C (Slotted p) tree.statements
  code : p.CodeOf tree.statements

/-- A sound tree is coded by what it compiles to. -/
theorem SyntaxTree.Sound.codedBy {tree : SyntaxTree} {p : Program} (hsound : tree.Sound)
    (hcompile : tree.compile = .ok p) (hfits : p.Fits) : tree.CodedBy p := by
  have hcode := hsound.codeOf hcompile hfits
  obtain ⟨C, -, hall⟩ := hsound
  have hnames : tree.names = p.names := SyntaxTree.compile_names hcompile
  rw [hnames] at hall
  exact ⟨hnames, ⟨C, hall⟩, hcode⟩

/-- A run with some fuel follows the evaluation with as much fuel. -/
theorem SyntaxTree.CodedBy.follows {tree : SyntaxTree} {p : Program} (hcoded : tree.CodedBy p)
    {call : Activation} {env : Env}
    (hcall : call.Starts p env) (henv : tree.names.width ≤ env.size) (fuel depth : Nat) (w : World) :
    match tree.eval fuel depth call env w with
    | none => execute fuel depth call w = none
    | some r => (∃ n, execute n depth call w = some r) ∧
        ∀ n t, execute n depth call w = some t → t = r := by
  obtain ⟨hnames, ⟨C, hall⟩, n, hat, hfinish⟩ := hcoded
  let s : Scene := ⟨tree.names, call, depth, fuel⟩
  have hstart : Suits ⟨0, 0, none⟩ ([] : List Value) ([] : List Lineage.Scope) :=
    ⟨rfl, rfl, fun _ h => nomatch h⟩
  have hsim := block_sim (s := s) hnames tree.statements hall hat hstart env w
    (.running (frame p 0 [] [] [] .null env) w) (hnames ▸ henv) ⟨[], .null, rfl⟩
  have hexec (n : Nat) : (Point.running (frame p 0 [] [] [] .null env) w).exec s n =
      execute n depth call w := by
    have hself : call.withFrame (frame p 0 [] [] [] .null env) = call := by
      obtain ⟨f, this, definer, method, player⟩ := call
      obtain rfl : f = { program := p, env := env } := hcall
      rfl
    simp only [Point.exec, hself, s]
  -- A run that comes to an end does so with enough fuel, and with any fuel only there.
  have hended {v : Verdict} {w' : World}
      (h : Leads s (.running (frame p 0 [] [] [] .null env) w) (.ended v w')) :
      (∃ n, execute n depth call w = some (v, w')) ∧
        ∀ n t, execute n depth call w = some t → t = (v, w') := by
    constructor
    · obtain ⟨m, hm⟩ := h.forth 0 (v, w') rfl
      exact ⟨m, (hexec m).symm.trans hm⟩
    · intro n t ht
      exact (Option.some.inj (h.back n t ((hexec n).trans ht))).symm
  simp only [SyntaxTree.eval]
  -- The evaluation runs out of fuel, raises, or leaves the block.
  generalize evalBlock s tree.statements env w = r at hsim
  rcases r with _ | ⟨⟨e⟩ | flow, env', w'⟩
  · exact (hexec fuel).symm.trans hsim
  · cases e with
    | raised e =>
      obtain ⟨-, f, hf, -, -, hscopes, -⟩ := hsim
      refine hended (hf.trans (.of_eq fun m => ?_))
      simp only [Point.exec, recover, withFrame, hscopes, Frame.handler?, Flow.verdict]
    | faulted => exact hended hsim
  · obtain ⟨-, c, hc, hleaves⟩ := hsim
    exact hended (hc.trans (leaves_verdict hfinish hleaves))

/-- A run ends exactly when the evaluation does, and then alike. -/
theorem SyntaxTree.CodedBy.execute_iff {tree : SyntaxTree} {p : Program} (hcoded : tree.CodedBy p)
    {call : Activation} {env : Env} (hcall : call.Starts p env) (henv : tree.names.width ≤ env.size)
    (depth : Nat) (w : World) (r : Verdict × World) :
    (∃ fuel, execute fuel depth call w = some r) ↔
      ∃ fuel, tree.eval fuel depth call env w = some r := by
  have hfollows := fun fuel => hcoded.follows hcall henv fuel depth w
  constructor
  · rintro ⟨fuel, hr⟩
    have h := hfollows fuel
    cases heval : tree.eval fuel depth call env w with
    | none => rw [heval] at h; rw [hr] at h; cases h
    | some t =>
      rw [heval] at h
      exact ⟨fuel, by rw [heval, h.2 fuel r hr]⟩
  · rintro ⟨fuel, hr⟩
    have h := hfollows fuel
    rw [hr] at h
    exact h.1

/-- So it is for the program of a sound script. -/
theorem execute_iff_eval {tree : SyntaxTree} {p : Program} (hsound : tree.Sound)
    (hcompile : tree.compile = .ok p) (hfits : p.Fits) {call : Activation} {env : Env}
    (hcall : call.Starts p env) (henv : tree.names.width ≤ env.size) (depth : Nat) (w : World)
    (r : Verdict × World) :
    (∃ fuel, execute fuel depth call w = some r) ↔
      ∃ fuel, tree.eval fuel depth call env w = some r :=
  (hsound.codedBy hcompile hfits).execute_iff hcall henv depth w r

/-- Every script that was read is sound.  The program of a sound script, run on its own from its
start, ends exactly when the evaluation of the script does, in the same world, with the value
that it returns or the error that it raises. -/
theorem compile_preserves :
    (∀ source customErrors tree, SyntaxTree.read source customErrors = .ok tree →
      tree.names.width ≤ UInt16.size → tree.Sound) ∧
    ∀ (tree : SyntaxTree) (p : Program), tree.Sound → tree.compile = .ok p → p.Fits →
      ∀ (call : Activation) (env : Env), call.Starts p env → tree.names.width ≤ env.size →
      ∀ (w w' : World) (v : Verdict),
        (∃ fuel o, Machine.run fuel ⟨call, []⟩ w = (some o, w') ∧ o.verdict = v) ↔
          ∃ fuel, tree.eval fuel 0 call env w = some (v, w') := by
  refine ⟨fun _ _ _ hread hwidth => SyntaxTree.sound_of_read hread hwidth, ?_⟩
  intro tree p hsound hcompile hfits call env hcall henv w w' v
  rw [Machine.run_iff_execute]
  exact execute_iff_eval hsound hcompile hfits hcall henv 0 w (v, w')

/-- Whether a script has a program that fits and returns a number in an empty world. -/
def returns (source : String) (n : Int64) : Bool :=
  match build? source true with
  | none => false
  | some (_, p) =>
    match (Machine.run 50 ⟨p.rootCall, []⟩ (World.initial (.memory {}) {})).1 with
    | some (.returned (.int m)) => m == n
    | _ => false

theorem returns_spec {source : String} {n : Int64} (h : returns source n = true) :
    ∃ tree p w', SyntaxTree.read source true = .ok tree ∧ tree.compile = .ok p ∧ p.Fits ∧
      Machine.run 50 ⟨p.rootCall, []⟩ (World.initial (.memory {}) {}) =
        (some (.returned (.int n)), w') := by
  unfold returns at h
  split at h
  · cases h
  · rename_i tree p hbuild
    obtain ⟨hread, hcompile, hfits⟩ := build?_eq_some hbuild
    split at h
    · rename_i m hended
      obtain rfl : m = n := eq_of_beq h
      exact ⟨tree, p, _, hread, hcompile, hfits, Prod.ext hended rfl⟩
    · cases h

/-- A script in which a division by zero goes to a handler. -/
def dividing : String := "try return 1 / 0; except (E_DIV) return 2; endtry"

/-- The evaluation of that script ends like its run, with what the handler returns. -/
theorem compile_preserves_dividing :
    ∃ tree p, SyntaxTree.read dividing true = .ok tree ∧ tree.compile = .ok p ∧
      ∃ fuel w w', tree.eval fuel 0 p.rootCall p.rootCall.frame.env w =
        some (.returned (.int 2), w') := by
  obtain ⟨tree, p, w', hread, hcompile, hfits, hrun⟩ :=
    returns_spec (show returns dividing 2 = true by decide +kernel)
  have hnames : tree.names = p.names := SyntaxTree.compile_names hcompile
  have hsound : tree.Sound := compile_preserves.1 _ _ tree hread (hnames ▸ hfits.names)
  have hslots : tree.names.width ≤ p.rootCall.frame.env.size := by
    simp only [Program.rootCall, start, initialEnv, hnames, List.size_toArray, List.length_append,
      List.length_map, List.length_replicate]
    omega
  obtain ⟨fuel, heval⟩ := (compile_preserves.2 tree p hsound hcompile hfits p.rootCall _ rfl
    hslots (World.initial (.memory {}) {}) w' (.returned (.int 2))).mp ⟨50, _, hrun, rfl⟩
  exact ⟨tree, p, hread, hcompile, fuel, _, w', heval⟩

end Script

end Lineage
