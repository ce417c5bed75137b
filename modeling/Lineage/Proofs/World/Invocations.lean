/-
  Lineage.Proofs.World.Invocations

  What a host has run, and the calls that are open meanwhile.

  Before anything runs the method is looked up and compiled (`Invocation.opens`); what
  follows is the run of one call.  From there on the open calls are in order whatever the
  scripts do, and an error that leaves the first of them tells of all that were open when
  it was raised (`Invocation.stack_disciplined`).
-/
import Lineage.Proofs.Machine.CallStack
import Lineage.Proofs.World.Reachable

namespace Lineage

-- Nothing here depends on what the compiler makes of a source, or on how a run goes.
attribute [local irreducible] Program.compile Machine.run

open World

/-- What a host asks to be run. -/
inductive Invocation where
  | call (h : Handle) (name : String) (args : List Value)
  | command (h : Handle) (word : String) (args : List Value) (player : ObjectId) (argstr : String)
  | eval (this : ObjectId) (source : String)

namespace Invocation

/-- The player for whom it is run. -/
def player : Invocation → ObjectId
  | call .. | eval .. => .nothing
  | command _ _ _ player _ => player

def run (fuel : Nat) : Invocation → Action (Option Value)
  | call h name args => World.call fuel h name args
  | command h word args player argstr => World.command fuel h word args player argstr
  | eval this source => World.eval fuel this source

/-- The call of a method, once that is compiled. -/
def openMethod (id definer : ObjectId) (name : String) (context : CallContext) (args : List Value) :
    Action Activation := do
  let p ← tryCatch (compiledMethod definer name) fun e => throw (blame id name e)
  return .start p id definer name context args

/-- The first call, as it is before anything has run. -/
def opens : Invocation → Action Activation
  | call h name args => do
    let id := (← recordOf h).id
    match ← findMethod h name with
    | some (definer, _) => openMethod id definer name (.direct id) args
    | none => throw (.methodNotFound id name)
  | command h word args player argstr => do
    let id := (← recordOf h).id
    match ← findCommand h word with
    | some (definer, name) => openMethod id definer name ⟨player, id, argstr⟩ args
    | none => throw (.methodNotFound id word)
  | eval this source => do
    match Program.compile source (← get).session.runtime.customErrors with
    | .error e => throw (.methodFailed this "eval" (.compile e))
    | .ok p => return .start p this this "eval" (.direct this) []

theorem openMethod_finish (fuel : Nat) (id definer : ObjectId) (name : String) (context : CallContext)
    (args : List Value) : runMethod fuel id definer name context args =
      openMethod id definer name context args >>= fun a => a.finish fuel := by
  rw [runMethod, openMethod, bind_assoc]
  rfl

/-- The first call is opened, and then it is run to its end. -/
theorem run_eq (fuel : Nat) (c : Invocation) : c.run fuel = c.opens >>= fun a => a.finish fuel := by
  cases c with
  | call h name args =>
    rw [run, World.call, opens, bind_assoc]
    refine bind_congr fun record => ?_
    rw [bind_assoc]
    refine bind_congr fun found => ?_
    cases found with
    | none => rfl
    | some owner => exact openMethod_finish fuel _ owner.1 name _ args
  | command h word args player argstr =>
    rw [run, World.command, opens, bind_assoc]
    refine bind_congr fun record => ?_
    rw [bind_assoc]
    refine bind_congr fun found => ?_
    cases found with
    | none => rfl
    | some owner => exact openMethod_finish fuel _ owner.1 owner.2 _ args
  | eval this source =>
    rw [run, World.eval, opens, bind_assoc]
    refine bind_congr fun w => ?_
    cases Program.compile source w.session.runtime.customErrors with
    | error e => rfl
    | ok p => rfl

/-- The first call is for the player of the invocation, and its program is as all programs are.  A
script that is run once may be any, so it has to be all the same what methods there are. -/
theorem opens_stocked (c : Invocation) {S : Stock} (hall : ∀ d, S.methods d) :
    Attempts (Stocked S) c.opens
      (fun a w => (a.player = c.player ∧ S.programs a.frame.program) ∧ w.Stocked S) (Stocked S) := by
  have hmethod (id definer : ObjectId) (name : String) (context : CallContext) (args : List Value) :
      Attempts (Stocked S) (openMethod id definer name context args)
        (fun a w => (a.player = context.player ∧ S.programs a.frame.program) ∧ w.Stocked S)
        (Stocked S) :=
    .bind (.recover (compiledMethod_stocked definer name) fun _ => .throw _ fun _ hw => hw)
      fun _ => .pure _ fun _ hw => ⟨⟨rfl, hw.1⟩, hw.2⟩
  cases c with
  | call h name args =>
    refine .bind (.lift (recordOf_keeps h)) fun record =>
      .bind ((served_stocked S).findMethod h name) fun found => ?_
    cases found with
    | none => exact .throw _ fun _ hw => hw
    | some owner => exact hmethod record.id owner.1 name _ args
  | command h word args player argstr =>
    refine .bind (.lift (recordOf_keeps h)) fun record =>
      .bind ((served_stocked S).findCommand h word) fun found => ?_
    cases found with
    | none => exact .throw _ fun _ hw => hw
    | some owner => exact hmethod record.id owner.1 owner.2 _ args
  | eval this source =>
    refine .bind .get fun w => ?_
    cases hp : Program.compile source w.session.runtime.customErrors with
    | error e => exact .throw _ fun _ hw => hw.2
    | ok p =>
      refine .pure _ ?_
      rintro _ ⟨rfl, hw⟩
      have hprogram : S.programs p := S.compiles { source } p (hall _) (hw.runtime ▸ hp)
      exact ⟨⟨rfl, hprogram⟩, hw⟩

/-- The first call is for the player of the invocation, and the settings are as before. -/
theorem opens_spec (c : Invocation) (runtime : RuntimeSettings) :
    Attempts (Stocked (.any runtime)) c.opens
      (fun a w => a.player = c.player ∧ w.Stocked (.any runtime)) (Stocked (.any runtime)) :=
  (c.opens_stocked fun _ => trivial).mono fun _ _ h => ⟨h.1.1, h.2⟩

/-- A run fails only with an error that nothing took. -/
theorem finish_error {a : Activation} {fuel : Nat} {w w' : World} {e : RuntimeError}
    (h : (a.finish fuel).run w = (.error e, w')) : ∃ x, Machine.run fuel ⟨a, []⟩ w = (some (.raised x), w') ∧
      e = .methodFailed a.this a.method (.exception x) := by
  have hfinish : (a.finish fuel).run w =
      (Outcome.report a.this a.method (Machine.run fuel ⟨a, []⟩ w).1).run (Machine.run fuel ⟨a, []⟩ w).2 := rfl
  rw [hfinish] at h
  rcases hrun : Machine.run fuel ⟨a, []⟩ w with ⟨_ | o, w₁⟩
  · rw [hrun] at h
    cases h
  · rw [hrun] at h
    cases o with
    | returned v => cases h
    | raised x =>
      cases h
      exact ⟨x, rfl, rfl⟩
    | faulted => cases h

/-- Once its first call is opened, an invocation is the run of that call.  In every state of the run
the open calls are those that began and did not end: at most as many as the settings allow, each
with the variables `caller` and `player` bound, when it began, to the object of the call below it
and to the player of the invocation.  If the run fails, then with an error whose trace is the lines
of all calls that were open when it was raised. -/
theorem stack_disciplined (c : Invocation) {w w₁ : World} {a : Activation}
    (hopens : c.opens.run w = (.ok a, w₁)) :
    (∀ fuel, (c.run fuel).run w = (a.finish fuel).run w₁) ∧
    (∀ m w₂, Machine.Reaches ⟨a, []⟩ w₁ m w₂ → ∃ opened, Machine.Unfolds a w₁ m w₂ opened ∧
      Machine.Orderly c.player w.session.runtime.maxStackDepth m opened) ∧
    ∀ fuel e w₂, (c.run fuel).run w = (.error e, w₂) → ∃ x m w₃,
      e = .methodFailed a.this a.method (.exception x) ∧ Machine.Reaches ⟨a, []⟩ w₁ m w₃ ∧
      m.step w₃ = (.halted (.raised x), w₂) ∧ x.trace = m.lines := by
  have hrun (fuel : Nat) : (c.run fuel).run w = (a.finish fuel).run w₁ := by
    rw [run_eq, run_bind, hopens]
  have hopened := opens_spec c w.session.runtime w (stocked_any w)
  rw [hopens] at hopened
  obtain ⟨hplayer, hstocked⟩ := hopened
  refine ⟨hrun, fun m w₂ hreaches => ?_, fun fuel e w₂ hfails => ?_⟩
  · obtain ⟨opened, hunfolds⟩ := hreaches.unfolds
    have horderly := hunfolds.orderly.2
    rw [hplayer, hstocked.runtime] at horderly
    exact ⟨opened, hunfolds, horderly⟩
  · rw [hrun] at hfails
    obtain ⟨x, hraised, rfl⟩ := finish_error hfails
    obtain ⟨m, w₃, hreaches, hlast⟩ := Machine.Reaches.of_run hraised
    exact ⟨x, m, w₃, rfl, hreaches, hlast, Machine.step_raised hlast⟩

/-- A method that calls itself once it has changed what its variables say of the call. -/
def muddled : String := "me = this; this = player; player = me; caller = []; return me:again();"

/-- A world whose root has that method, in a session that allows three calls. -/
def recursing : World :=
  [.ensureRoot, .setMethod ⟨0⟩ "again" { source := muddled }].foldl
    (fun w op => Operation.after op w) ((openSession { maxStackDepth := 3 }).run (initial (.memory {}) {})).2

/-- Whether a run fails with an error that has left so many calls. -/
def leaves (c : Invocation) (fuel : Nat) (w : World) (calls : Nat) : Bool :=
  match ((c.run fuel).run w).1 with
  | .error (.methodFailed _ _ (.exception x)) => x.trace.length == calls
  | _ => false

theorem leaves_spec {c : Invocation} {fuel : Nat} {w : World} {calls : Nat}
    (h : c.leaves fuel w calls = true) : ∃ id name x w', x.trace.length = calls ∧
      (c.run fuel).run w = (.error (.methodFailed id name (.exception x)), w') := by
  unfold leaves at h
  split at h
  · rename_i id name x hfailed
    exact ⟨id, name, x, _, eq_of_beq h, Prod.ext hfailed rfl⟩
  · cases h

/-- The fourth call of that method is refused, and the error leaves the three that are open: each is
called by the root, and so are their variables bound. -/
theorem stack_disciplined_recursing :
    ∃ a w₁ m w₂ opened, (call ⟨0⟩ "again" []).opens.run recursing = (.ok a, w₁) ∧
      Machine.Unfolds a w₁ m w₂ opened ∧ opened.length = 3 ∧
      opened.IsChain (Activation.CalledBy .nothing) ∧
      ∃ x w₃, m.step w₂ = (.halted (.raised x), w₃) ∧ x.trace = m.lines := by
  obtain ⟨id, name, x, w₃, hcalls, hfails⟩ :=
    leaves_spec (show (call ⟨0⟩ "again" []).leaves 60 recursing 3 = true by decide +kernel)
  have hopened : ((call ⟨0⟩ "again" []).opens.run recursing).1.isOk = true := by decide +kernel
  rcases hopens : (call ⟨0⟩ "again" []).opens.run recursing with ⟨e | a, w₁⟩
  · rw [hopens] at hopened
    cases hopened
  · obtain ⟨-, hstates, herrors⟩ := stack_disciplined _ hopens
    obtain ⟨y, m, w₂, hxy, hreaches, hlast, htrace⟩ := herrors 60 _ w₃ hfails
    cases hxy
    obtain ⟨opened, hunfolds, horderly⟩ := hstates m w₂ hreaches
    refine ⟨a, w₁, m, w₂, opened, rfl, hunfolds, ?_, horderly.called, x, w₃, hlast, htrace⟩
    rw [← horderly.length_eq, ← hcalls, htrace, Machine.lines, List.length_cons, List.length_map]
    rfl

end Invocation

end Lineage
