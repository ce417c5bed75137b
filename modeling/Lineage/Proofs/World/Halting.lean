/-
  Lineage.Proofs.World.Halting

  Scripts without `while` halt.

  In a world all of whose methods are tame, every run of a tame script comes to an end
  with a value or an error, whatever it does on the way (`World.tame_halts`).

  Methods may call each other in circles, so nothing about the scripts bounds a run.  But
  no call is deeper than the settings of the session allow, and the settings never change.
  So the proof is by induction on how much deeper a call may still be: nothing in a tame
  script needs fuel but the methods that it calls, and they are one call deeper.  All of
  them are tame, since no tame script sets a method.

  Finding a method takes no fuel of the run.  Its own bound never cuts a chain of parents
  short (`ascend_enough`).
-/
import Lineage.Proofs.Machine.Reachable
import Lineage.Proofs.Program.Safety
import Lineage.Proofs.Script.Correctness
import Lineage.Proofs.Script.Termination
import Lineage.Proofs.World.Stock

namespace Lineage

-- Nothing here depends on what the compiler makes of a source, or on how a run goes.
attribute [local irreducible] Program.compile Machine.run

open Script Activation World

/-! ## Tame methods -/

/-- Whatever a source is read as is tame, and the numbers in the program of it fit. -/
def Script.TameSource (customErrors : Bool) (source : String) : Prop :=
  ∀ tree, SyntaxTree.read source customErrors = .ok tree →
    tree.tame = true ∧ ∀ p, tree.compile = .ok p → p.Fits

/-- Whether a source has a tame script and a program that fits. -/
def Script.tameSource (customErrors : Bool) (source : String) : Bool :=
  match build? source customErrors with
  | some (tree, _) => tree.tame
  | none => false

theorem Script.TameSource.of_eq_true {customErrors : Bool} {source : String}
    (h : tameSource customErrors source = true) : TameSource customErrors source := by
  unfold tameSource at h
  split at h
  · rename_i tree p hbuild
    obtain ⟨hread, hcompile, hfits⟩ := build?_eq_some hbuild
    intro other hother
    cases hread.symm.trans hother
    refine ⟨h, fun q hq => ?_⟩
    cases hcompile.symm.trans hq
    exact hfits
  · cases h

/-- The program of a tame script. -/
def Program.Tame (p : Program) : Prop :=
  p.Fits ∧ ∃ tree : SyntaxTree, tree.Sound ∧ tree.tame = true ∧ tree.compile = .ok p

theorem Script.TameSource.program {customErrors : Bool} {source : String} {p : Program}
    (h : TameSource customErrors source) (hp : Program.compile source customErrors = .ok p) :
    p.Tame := by
  obtain ⟨tree, hread, hcompile⟩ := Program.compile_ok hp
  obtain ⟨htame, hfits⟩ := h tree hread
  have hnames : tree.names = p.names := SyntaxTree.compile_names hcompile
  exact ⟨hfits p hcompile, tree,
    SyntaxTree.sound_of_read hread (hnames ▸ (hfits p hcompile).names), htame, hcompile⟩

/-- Methods with tame sources, and programs of tame scripts. -/
def Stock.tame (runtime : RuntimeSettings) : Stock where
  runtime := runtime
  methods m := TameSource runtime.customErrors m.source
  programs := Program.Tame
  compiles _ _ hm hp := hm.program hp

/-- What a valid session keeps compiled was compiled from the methods of its copies. -/
theorem World.AllMethods.stocked {w : World} (hvalid : w.session.Valid)
    (h : w.AllMethods fun m => TameSource w.session.runtime.customErrors m.source) :
    w.Stocked (.tame w.session.runtime) where
  toAllMethods := h
  runtime := rfl
  compiled e he x hx := by
    obtain ⟨owner, m, -, hm, hp⟩ := hvalid.compiled he hx
    have hmethod : TameSource w.session.runtime.customErrors m.source :=
      h.copies owner (x.1, m) (Dict.mem_of_get? hm)
    exact hmethod.program hp

/-! ## Calls that halt -/

/-- What is asked for comes to an end that is no fault, in a world with `I`. -/
def Settles (I : World → Prop) (r : Option (Verdict × World)) : Prop :=
  ∃ v w, r = some (v, w) ∧ v ≠ .faulted ∧ I w

theorem Settles.returned {I : World → Prop} {w : World} (v : Value) (hw : I w) :
    Settles I (some (.returned v, w)) := ⟨_, w, rfl, Verdict.noConfusion, hw⟩

theorem Settles.raised {I : World → Prop} {w : World} (e : ScriptError) (hw : I w) :
    Settles I (some (.raised e, w)) := ⟨_, w, rfl, Verdict.noConfusion, hw⟩

/-- From every world with `I`, a call with `depth` callers comes to an end. -/
def Activation.Halts (I : World → Prop) (depth : Nat) (a : Activation) : Prop :=
  ∀ w, I w → ∃ fuel, Settles I (execute fuel depth a w)

/-- A call of a tame program that begins. -/
def Activation.Tame (a : Activation) : Prop :=
  ∃ p this definer method context args, p.Tame ∧ a = .start p this definer method context args

variable {runtime : RuntimeSettings} {depth : Nat}

/-- An action gives a value or an error. -/
theorem attempt_settles {I : World → Prop} {action : ScriptAction Value} (h : Guards I action)
    {w : World} (hw : I w) : Settles I (action.attempt w) := by
  have hrun := h.run w hw
  unfold ScriptAction.attempt
  rcases hr : action.run w with ⟨e | v, w₁⟩
  · rw [hr] at hrun
    exact .raised e hrun
  · rw [hr] at hrun
    exact .returned v hrun

section

variable (hdeeper : depth + 1 < runtime.maxStackDepth →
  ∀ callee : Activation, callee.Tame → callee.Halts (Stocked (.tame runtime)) (depth + 1))
include hdeeper

/-- Whatever a tame script asks for is settled, with enough fuel for the calls below. -/
theorem serve_settles (a : Activation) {q : Request} (hq : Tame q) {w : World}
    (hw : w.Stocked (.tame runtime)) : ∃ n r, Settles (Stocked (.tame runtime)) r ∧
      ∀ fuel, n ≤ fuel → a.serve (execute fuel (depth + 1)) depth q w = r := by
  have hserved := served_stocked (.tame runtime)
  cases q with
  | getProp object property =>
    exact ⟨0, _, attempt_settles (Machine.getProp_guards hserved object property) hw, fun _ _ => rfl⟩
  | putProp object property v =>
    exact ⟨0, _, attempt_settles (Machine.putProp_guards hserved object property v) hw, fun _ _ => rfl⟩
  | callBuiltin f args =>
    have hset : f = .setMethod → SetsMethods (Stocked (.tame runtime)) := by
      rintro rfl
      exact absurd rfl (hq args)
    exact ⟨0, _, attempt_settles (f.call_guards hserved hset args) hw, fun _ _ => rfl⟩
  | callMethod object name args =>
    have hentered := (Machine.enterMethod_attempts hserved compiledMethod_stocked a depth object name
      args).run w hw
    simp only [serve]
    rcases henter : (Machine.enterMethod a depth object name args).run w with ⟨e | callee, w₁⟩
    · rw [henter] at hentered
      exact ⟨0, _, .raised e hentered, fun _ _ => rfl⟩
    · rw [henter] at hentered
      obtain ⟨htame, hw₁⟩ := hentered
      obtain ⟨hdepth, p, this, definer, method, values, rfl⟩ := Machine.enterMethod_opens henter
      rw [hw.runtime] at hdepth
      obtain ⟨n, v, w₂, hrun, hv, hw₂⟩ :=
        hdeeper hdepth _ ⟨p, this, definer, method, _, values, htame, rfl⟩ w₁ hw₁
      exact ⟨n, _, ⟨v, w₂, rfl, hv, hw₂⟩, fun fuel hfuel => execute_mono hfuel (depth + 1) _ _ _ hrun⟩

/-- The same, as part of an evaluation. -/
theorem ask_ends (names : Names) (a : Activation) (q : Request) (hq : Tame q) :
    Ends (Stocked (.tame runtime)) (fun fuel => (Scene.mk names a depth fuel).ask q) Plain := by
  intro env w hw
  obtain ⟨n, r, ⟨v, w₁, rfl, hv, hw₁⟩, hserve⟩ := serve_settles hdeeper a hq hw
  have hask (fuel : Nat) (hfuel : n ≤ fuel) : (Scene.mk names a depth fuel).ask q env w =
      match v with
      | .returned v => some (.ok v, env, w₁)
      | .raised e => some (.error (.raised e), env, w₁)
      | .faulted => some (.error .faulted, env, w₁) := by
    rw [Scene.ask, hserve fuel hfuel]
    cases v <;> rfl
  cases v with
  | returned v => exact .value n ⟨v, trivial, rfl⟩ hw₁ hask
  | raised e => exact .error n hw₁ hask
  | faulted => exact absurd rfl hv

/-- The evaluation of a tame script is settled, with enough fuel. -/
theorem eval_settles {tree : SyntaxTree} (htame : tree.tame = true) {p : Program} {j : Nat}
    (hat : BlockAt p ⟨0, 0, none⟩ tree.statements 0 j) (call : Activation) (env : Env) {w : World}
    (hw : w.Stocked (.tame runtime)) :
    ∃ n, Settles (Stocked (.tame runtime)) (tree.eval n depth call env w) := by
  have hends := block_ends (ask_ends hdeeper tree.names call) tree.statements htame hat env w hw
  -- What the statements come to decides the verdict.
  have hverdict {r : Except Stop Flow} {env₁ : Env} {w₁ : World} {n : Nat}
      (h : evalBlock ⟨tree.names, call, depth, n⟩ tree.statements env w = some (r, env₁, w₁)) :
      tree.eval n depth call env w = some (Flow.verdict r, w₁) := by
    simp only [SyntaxTree.eval, h, Option.map_some]
  cases hends with
  | error n hw₁ h => exact ⟨n, hverdict (h n (Nat.le_refl n)) ▸ .raised _ hw₁⟩
  | value n hflow hw₁ h =>
    obtain ⟨flow, hstays, rfl⟩ := hflow
    refine ⟨n, hverdict (h n (Nat.le_refl n)) ▸ ?_⟩
    cases flow with
    | next | «return» => exact .returned _ hw₁
    | «break» | «continue» => exact absurd rfl hstays

/-- A call of a tame program halts if all that are one call deeper do. -/
theorem Activation.Tame.halts_above {a : Activation} (ha : a.Tame) :
    a.Halts (Stocked (.tame runtime)) depth := by
  obtain ⟨p, this, definer, method, context, args, ⟨hfits, tree, hsound, htame, hcompile⟩, rfl⟩ := ha
  have hnames : tree.names = p.names := SyntaxTree.compile_names hcompile
  have henv := hnames ▸ Machine.width_le_start p this definer method context args
  obtain ⟨_, hat, -⟩ := hsound.codeOf hcompile hfits
  intro w hw
  have hstarts : (start p this definer method context args).Starts p _ := rfl
  obtain ⟨n, v, w₁, heval, hend⟩ := eval_settles hdeeper htame hat _ _ hw
  obtain ⟨fuel, hrun⟩ :=
    (execute_iff_eval hsound hcompile hfits hstarts henv depth w (v, w₁)).mpr ⟨n, heval⟩
  exact ⟨fuel, v, w₁, hrun, hend⟩

end

/-- A call of a tame program halts.  Induction on how many more calls may be opened above it. -/
theorem Activation.Tame.halts {a : Activation} (ha : a.Tame) (more : Nat)
    (hmore : runtime.maxStackDepth ≤ depth + more) : a.Halts (Stocked (.tame runtime)) depth := by
  induction more generalizing depth a with
  | zero => exact ha.halts_above fun hdepth => by omega
  | succ more ih => exact ha.halts_above fun _ callee hcallee => ih hcallee (by omega)

/-! ## Runs -/

namespace World

/-- In a world whose methods are all tame, a run of a tame script halts, with a value or with an
error that nothing took.  The session may allow any number of calls. -/
theorem tame_halts {w : World} (hvalid : w.session.Valid)
    (hmethods : w.AllMethods fun m => TameSource w.session.runtime.customErrors m.source)
    {customErrors : Bool} {source : String} (hsource : TameSource customErrors source) {p : Program}
    (hcompile : Program.compile source customErrors = .ok p) (this definer : ObjectId)
    (method : String) (context : CallContext) (args : List Value) :
    ∃ enough o w', (∀ fuel, enough ≤ fuel →
      Machine.run fuel ⟨.start p this definer method context args, []⟩ w = (some o, w')) ∧
      ((∃ v, o = .returned v) ∨ ∃ x, o = .raised x) := by
  have hcall : Activation.Tame (.start p this definer method context args) :=
    ⟨p, this, definer, method, context, args, hsource.program hcompile, rfl⟩
  obtain ⟨fuel, v, w', hrun, hv, -⟩ :=
    hcall.halts w.session.runtime.maxStackDepth (Nat.le_add_left _ 0) w (hmethods.stocked hvalid)
  obtain ⟨enough, o, hhalted, rfl⟩ := (Machine.run_iff_execute _ w w' v).mpr ⟨fuel, hrun⟩
  refine ⟨enough, o, w', fun fuel hfuel => Machine.finish_mono (p := .running _) hhalted hfuel, ?_⟩
  cases o with
  | returned v => exact .inl ⟨v, rfl⟩
  | raised x => exact .inr ⟨x, rfl⟩
  | faulted => exact absurd rfl hv

/-- A method that calls itself again and again, and goes on after every error. -/
def circling : String :=
  "for i in [1..2] try this:again(); except (ANY) continue; endtry endfor return 1;"

/-- A world whose root has that method, in a session that allows three calls. -/
def circled : World :=
  let root : Record :=
    { Record.bare .root .nothing .epoch with methods := .ofList [("again", { source := circling })] }
  initial (.memory { records := [(.root, root)] }) { maxStackDepth := 3 }

/-- A run of that method halts. -/
theorem tame_halts_circled : ∃ p fuel o w', Program.compile circling true = .ok p ∧
    Machine.run fuel ⟨.start p .root .root "again" (.direct .root) [], []⟩ circled =
      (some o, w') ∧ ((∃ v, o = .returned v) ∨ ∃ x, o = .raised x) := by
  have hvalid : circled.session.Valid := .start { maxStackDepth := 3 }
  have htame : TameSource true circling := .of_eq_true (by decide +kernel)
  have hmethods : circled.AllMethods fun m => TameSource true m.source := by
    refine ⟨nofun, nofun, fun record hrecord e he => ?_⟩
    obtain rfl := List.mem_singleton.mp hrecord
    obtain rfl := List.mem_singleton.mp he
    exact htame
  have hok : (Program.compile circling true).isOk = true := by decide +kernel
  cases hcompile : Program.compile circling true with
  | error e =>
    rw [hcompile] at hok
    cases hok
  | ok p =>
    obtain ⟨enough, o, w', hrun, hended⟩ :=
      tame_halts hvalid hmethods htame hcompile .root .root "again" (.direct .root) []
    exact ⟨p, enough, o, w', rfl, hrun enough (Nat.le_refl enough), hended⟩

end World

end Lineage
