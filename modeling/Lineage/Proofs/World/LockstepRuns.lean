/-
  Lineage.Proofs.World.LockstepRuns

  The functions that scripts call, and the machine, in two worlds side by side.

  Worlds that what scripts are made of cannot tell apart (`Lockstep`) cannot be told apart
  by a function (`Lockstep.builtin`), hence not by one step of the machine
  (`Lockstep.step`), and by induction on the fuel not by a run (`Lockstep.run`).
-/
import Lineage.Proofs.Machine.Execution
import Lineage.Proofs.World.Lockstep

namespace Lineage

-- Nothing here depends on what the compiler makes of a source.
attribute [local irreducible] Program.compile

variable {rel : Nat → World → World → Prop} {at' : Handle → Handle → World → World → Prop}
  {allowed : ObjectId → World → Prop} {k : Nat}

namespace ScriptAction

variable {R : World → World → Prop}

theorem idOf_agree (v : Value) : Agree R (idOf v) := by
  unfold idOf
  split
  · exact .pure fun _ _ hw => ⟨rfl, hw⟩
  · exact .throw _ fun _ _ hw => hw

theorem objectOf_matches (hload : ∀ id, Matches R (World.load id) (World.load id) (Found R at') R)
    (v : Value) : Matches R (objectOf v) (objectOf v) (Held R at') R :=
  .bindEq (idOf_agree v) fun id => (hload id).forScript.found (.throw _ fun _ _ hw => hw)
    fun _ _ => .pure fun _ _ hw => hw

end ScriptAction

namespace Lockstep

variable (hL : Lockstep rel at' allowed)
include hL

/-- What creates no object leaves room for one more than it has to. -/
theorem spares {α ε : Type} {x : ExceptT ε (StateM World) α} (hx : Agree (rel (k + 1)) x) :
    Matches (rel (k + 1)) x x (Equally (rel k)) (rel k) :=
  hx.impl (fun _ _ hw => hw) (fun _ _ _ _ hw => ⟨hw.1, hL.less hw.2⟩) fun _ _ hw => hL.less hw

/-! ## Functions -/

theorem objectOf (v : Value) : Matches (rel k) (ScriptAction.objectOf v) (ScriptAction.objectOf v)
    (Held (rel k) at') (rel k) := ScriptAction.objectOf_matches (hL.load k) v

theorem replaceMethod (h h' : Handle) (name source : String) : Matches (Held (rel k) at' h h')
    (ScriptAction.replaceMethod h name source) (ScriptAction.replaceMethod h' name source)
    (Equally (rel k)) (rel k) := by
  have hset (m : MethodDef) : Matches (Held (rel k) at' h h')
      (do World.setMethod h name m; World.saveLater h : ScriptAction Unit)
      (do World.setMethod h' name m; World.saveLater h' : ScriptAction Unit) (Equally (rel k)) (rel k) :=
    .bind (.lift (hL.setMethod k h h' name m)) fun _ _ =>
      .lift ((hL.saveLater k h h').mono fun _ _ _ _ hw => ⟨rfl, hw⟩)
  refine .bind .get fun seen seen' => .assume (C := seen.session.runtime = seen'.session.runtime) ?_
    fun hruntime => .weaken ?_ fun _ _ hw => hw.2
  · rintro w w' ⟨⟨rfl, rfl⟩, hw⟩
    exact (hL.settings hw.1).1
  · rw [hruntime]
    cases Program.compile source seen'.session.runtime.customErrors with
    | error e => exact .throw _ fun _ _ hw => hw.1
    | ok p => exact .bindEq (.lift (hL.recordOf h h')) fun record => hset _

omit hL in
theorem computed (result : Except ScriptError Value) :
    Agree (rel k) (ExceptT.mk (pure result) : ScriptAction Value) := by
  cases result with
  | ok v => exact .pure fun _ _ hw => ⟨rfl, hw⟩
  | error e => exact .throw _ fun _ _ hw => hw

theorem random (args : List Value) : Agree (rel k) (ScriptAction.random args) := by
  unfold ScriptAction.random
  split
  · exact .lift (hL.draw k _)
  · split
    · exact .throw _ fun _ _ hw => hw
    · exact .lift (hL.draw k _)
  · exact .throw _ fun _ _ hw => hw

/-- The functions that create no object and give none another parent. -/
theorem settledBuiltin (f : Builtin) (args : List Value) (hcreate : f ≠ .create)
    (hchparent : f ≠ .chparent) : Agree (rel k) (ScriptAction.builtin f args) := by
  unfold ScriptAction.builtin
  split
  -- `create`, with as many arguments as it takes
  · exact absurd rfl hcreate
  · exact absurd rfl hcreate
  · exact absurd rfl hcreate
  -- `recycle`
  · exact .bind (hL.objectOf _) fun h h' => .bindEq (.lift (hL.recordOf h h')) fun record =>
      .bindEq ((hL.recycle k record.id).forScript.weaken fun _ _ hw => hw.1) fun _ =>
      .pure fun _ _ hw => ⟨rfl, hw⟩
  -- `valid` and `parent`
  · exact .bindEq (ScriptAction.idOf_agree _) fun id => (hL.load k id).forScript.found
      (.pure fun _ _ hw => ⟨rfl, hw⟩) fun _ _ => .pure fun _ _ hw => ⟨rfl, hw.1⟩
  · exact .bind (hL.objectOf _) fun h h' => .bindEq (.lift (hL.recordOf h h')) fun _ =>
      .pure fun _ _ hw => ⟨rfl, hw.1⟩
  -- `chparent`
  · exact absurd rfl hchparent
  -- `alias` and `set_alias`
  · refine .bindEq (hL.alias? _).forScript fun found => ?_
    cases found with
    | some id => exact .pure fun _ _ hw => ⟨rfl, hw⟩
    | none => exact .throw _ fun _ _ hw => hw
  · exact .bindEq (ScriptAction.idOf_agree _) fun target => .bindEq (hL.setAlias _ target).forScript fun _ =>
      .pure fun _ _ hw => ⟨rfl, hw⟩
  -- `properties` and `methods`
  · exact .bind (hL.objectOf _) fun h h' => .bindEq (.lift (hL.recordOf h h')) fun _ =>
      .pure fun _ _ hw => ⟨rfl, hw.1⟩
  · exact .bind (hL.objectOf _) fun h h' => .bindEq (.lift (hL.recordOf h h')) fun _ =>
      .pure fun _ _ hw => ⟨rfl, hw.1⟩
  -- `has_property` and `has_method`
  · exact .bind (hL.objectOf _) fun h h' =>
      .returns ((hL.resolved _ h h').returns Option.isSome).forScript Value.bool
  · exact .bind (hL.objectOf _) fun h h' =>
      .returns ((hL.resolved _ h h').returns Option.isSome).forScript Value.bool
  -- `set_method` and `remove_method`
  · exact .bind (hL.objectOf _) fun h h' => .bindEq (hL.replaceMethod h h' _ _) fun _ =>
      .pure fun _ _ hw => ⟨rfl, hw⟩
  · exact .bind (hL.objectOf _) fun h h' => .bindEq (.lift (hL.removeMethod k h h' _)) fun _ =>
      .bind (.lift (hL.saveLater k h h')) fun _ _ => .pure fun _ _ hw => ⟨rfl, hw⟩
  -- `find_by_property`
  · refine .bind (hL.findByProperty _ _).forScript fun found found' => .bind .get fun seen seen' => ?_
    refine .pure ?_
    rintro _ _ ⟨⟨rfl, rfl⟩, pairs, rfl, rfl, hrel, hheld⟩
    refine ⟨congrArg Value.list ?_, hrel⟩
    rw [List.map_map, List.map_map]
    refine List.map_congr_left fun p hp => ?_
    have hcopy := hL.copies ⟨hrel, hheld p (List.mem_append_left _ hp)⟩
    exact congrArg (fun c : Copy => Value.obj c.record.id) hcopy
  -- `save`, `time` and `random`
  · exact .bind (hL.objectOf _) fun h h' => .returns (hL.save k h h').forScript Value.bool
  · refine .bind .get fun seen seen' => .pure ?_
    rintro _ _ ⟨⟨rfl, rfl⟩, hw⟩
    exact ⟨by rw [(hL.settings hw).2], hw⟩
  · exact hL.random _
  -- Arguments that the function does not take.
  · exact .throw _ fun _ _ hw => hw

theorem createBuiltin (args : List Value) : Matches (rel (k + 1)) (ScriptAction.builtin .create args)
    (ScriptAction.builtin .create args) (Equally (rel k)) (rel k) := by
  match args with
  | [] => exact hL.createObject k _ _
  | [parent] => exact .bindEq ((ScriptAction.idOf_agree parent).impl (fun _ _ hw => hw) (fun _ _ _ _ hw => hw)
      fun _ _ hw => hL.less hw) fun id => hL.createObject k id _
  | parent :: properties :: rest =>
    exact .bindEq ((ScriptAction.idOf_agree parent).impl (fun _ _ hw => hw) (fun _ _ _ _ hw => hw)
      fun _ _ hw => hL.less hw) fun id => hL.createObject k id _

/-- No function can tell the worlds apart. -/
theorem builtin (f : Builtin) (args : List Value) : Matches
    (fun w w' => rel (k + 1) w w' ∧ (Request.callBuiltin f args).Within allowed w)
    (ScriptAction.builtin f args) (ScriptAction.builtin f args) (Equally (rel k)) (rel k) := by
  by_cases hcreate : f = .create
  · subst hcreate
    exact (hL.createBuiltin args).weaken fun _ _ hw => hw.1
  · by_cases hchparent : f = .chparent
    · subst hchparent
      match args with
      | [] => exact .throw _ fun _ _ hw => hL.less hw.1
      | [v] => exact .throw _ fun _ _ hw => hL.less hw.1
      | v :: parent :: rest =>
        exact (hL.chparent k v parent rest).weaken fun _ _ hw => ⟨hL.less hw.1, hw.2⟩
    · exact (hL.spares (hL.settledBuiltin f args hcreate hchparent)).weaken fun _ _ hw => hw.1

theorem call (f : Builtin) (args : List Value) : Matches
    (fun w w' => rel (k + 1) w w' ∧ (Request.callBuiltin f args).Within allowed w)
    (f.call args) (f.call args) (Equally (rel k)) (rel k) := by
  unfold Builtin.call
  cases f.check args with
  | ok _ =>
    refine .bind (Q := fun _ _ w w' => rel (k + 1) w w' ∧
      (Request.callBuiltin f args).Within allowed w) (fun _ _ hw => hw) fun _ _ => ?_
    split
    · exact (hL.spares (computed _)).weaken fun _ _ hw => hw.1
    · exact hL.builtin f args
  | error e => exact .thrown e fun _ _ hw => hL.less hw.1

/-! ## Requests -/

omit hL in
theorem objectOperand (v : Value) : Agree (rel k) (Machine.objectOperand v) := by
  unfold Machine.objectOperand
  split
  · exact .pure fun _ _ hw => ⟨rfl, hw⟩
  · exact .throw _ fun _ _ hw => hw

omit hL in
theorem textOperand (what : String) (v : Value) : Agree (rel k) (Machine.textOperand what v) := by
  unfold Machine.textOperand
  split
  · exact .pure fun _ _ hw => ⟨rfl, hw⟩
  · exact .throw _ fun _ _ hw => hw

theorem liveObject (id : ObjectId) : Matches (rel k) (Machine.liveObject id) (Machine.liveObject id)
    (Held (rel k) at') (rel k) :=
  (hL.load k id).forScript.found (.throw _ fun _ _ hw => hw) fun _ _ => .pure fun _ _ hw => hw

theorem getProp (object property : Value) : Agree (rel k) (Machine.getProp object property) := by
  refine .bindEq (objectOperand object) fun id => .bindEq (textOperand _ property) fun name =>
    .bind (hL.liveObject id) fun h h' => .bindEq (hL.viewValue h h' name).forScript fun found => ?_
  cases found with
  | some v => exact .pure fun _ _ hw => ⟨rfl, hw⟩
  | none => exact .throw _ fun _ _ hw => hw

theorem putProp (object property v : Value) : Agree (rel k) (Machine.putProp object property v) :=
  .bindEq (objectOperand object) fun id => .bindEq (textOperand _ property) fun name =>
    .bind (hL.liveObject id) fun h h' => .bindEq (hL.viewSet h h' name v).forScript fun _ =>
    .pure fun _ _ hw => ⟨rfl, hw⟩

theorem programFor (definer : ObjectId) (name : String) :
    Agree (rel k) (Machine.programFor definer name) := by
  refine .bind (.lift (hL.compiled k definer name).run) fun r r' => ?_
  cases r with
  | ok p =>
    cases r' with
    | ok p' =>
      rintro w w' ⟨rfl, hw⟩
      exact ⟨rfl, hw⟩
    | error e' => exact fun _ _ hw => hw.elim
  | error e =>
    cases r' with
    | ok p' => exact fun _ _ hw => hw.elim
    | error e' =>
      refine .assume (C := e = e') (fun _ _ hw => hw.1) ?_
      rintro rfl
      split
      · rename_i heq
        cases heq
      · exact .throw _ fun _ _ hw => hw.2
      · exact .throw _ fun _ _ hw => hw.2

theorem enterMethod (a : Activation) (depth : Nat) (object name args : Value) :
    Agree (rel k) (Machine.enterMethod a depth object name args) := by
  refine .bindEq (objectOperand object) fun id => .bindEq (textOperand _ name) fun method => ?_
  dsimp only
  split
  · rename_i items
    refine .bind .get fun seen seen' => .assume (C := seen.session.runtime = seen'.session.runtime) ?_
      fun hruntime => .weaken ?_ fun _ _ hw => hw.2
    · rintro w w' ⟨⟨rfl, rfl⟩, hw⟩
      exact (hL.settings hw).1
    · rw [hruntime]
      split
      · exact .thrown _ fun _ _ hw => hw
      · refine .bind (hL.liveObject id) fun h h' => .bindEq (hL.resolved _ h h').forScript fun found => ?_
        cases found with
        | none => exact .throw _ fun _ _ hw => hw
        | some owner => exact .returns (hL.programFor owner.1 method) _
  · exact .throw _ fun _ _ hw => hw

/-! ## The machine -/

omit hL in
theorem respond (m : Machine) {P : World → World → Prop} {x : ScriptAction Value}
    (hx : Matches P x x (Equally (rel k)) (rel k)) :
    Twins P (Machine.serve.respond m x) (Machine.serve.respond m x) (Equally (rel k)) := by
  refine .bind hx.run fun r r' => ?_
  cases r with
  | ok v =>
    cases r' with
    | ok v' =>
      rintro w w' ⟨rfl, hw⟩
      exact ⟨rfl, hw⟩
    | error e' => exact fun _ _ hw => hw.elim
  | error e =>
    cases r' with
    | ok v' => exact fun _ _ hw => hw.elim
    | error e' =>
      rintro w w' ⟨rfl, hw⟩
      exact ⟨rfl, hw⟩

/-- No request can tell the worlds apart. -/
theorem serve (m : Machine) (r : Request) :
    Twins (fun w w' => rel (k + 1) w w' ∧ r.Within allowed w) (m.serve r) (m.serve r)
      (Equally (rel k)) := by
  cases r with
  | getProp object property =>
    exact respond m ((hL.spares (hL.getProp object property)).weaken fun _ _ hw => hw.1)
  | putProp object property v =>
    exact respond m ((hL.spares (hL.putProp object property v)).weaken fun _ _ hw => hw.1)
  | callBuiltin f args => exact respond m (hL.call f args)
  | callMethod object name args =>
    refine .bind ((hL.spares (hL.enterMethod m.running m.callers.length object name args)).weaken
      fun _ _ hw => hw.1).run fun r r' => ?_
    cases r with
    | ok a =>
      cases r' with
      | ok a' =>
        rintro w w' ⟨rfl, hw⟩
        exact ⟨rfl, hw⟩
      | error e' => exact fun _ _ hw => hw.elim
    | error e =>
      cases r' with
      | ok a' => exact fun _ _ hw => hw.elim
      | error e' =>
        rintro w w' ⟨rfl, hw⟩
        exact ⟨rfl, hw⟩

/-- What the worlds must be like for a machine to make a step in both. -/
theorem step (m : Machine) : Twins
    (fun w w' => rel (k + 1) w w' ∧ ∀ r f, m.running.frame.step = .ask r f → r.Within allowed w)
    m.step m.step (Equally (rel k)) := by
  unfold Machine.step
  split
  · exact .pure fun _ _ hw => ⟨rfl, hL.less hw.1⟩
  · exact .pure fun _ _ hw => ⟨rfl, hL.less hw.1⟩
  · exact .pure fun _ _ hw => ⟨rfl, hL.less hw.1⟩
  · rename_i r f hstep
    exact (hL.serve _ r).weaken fun _ _ hw => ⟨hw.1, hw.2 r f hstep⟩
  · exact .pure fun _ _ hw => ⟨rfl, hL.less hw.1⟩

theorem less_add {w w' : World} (fuel : Nat) (hw : rel (k + fuel) w w') : rel k w w' := by
  induction fuel with
  | zero => exact hw
  | succ fuel ih => exact ih (hL.less hw)

/-- Induction on the fuel; each step may create an object. -/
theorem run (fuel : Nat) (m : Machine) : Twins
    (fun w w' => rel (k + fuel) w w' ∧ m.Keeping allowed fuel w) (Machine.run fuel m)
    (Machine.run fuel m) (Equally (rel k)) := by
  induction fuel generalizing m with
  | zero => exact .pure fun _ _ hw => ⟨rfl, hw.1⟩
  | succ fuel ih =>
    rintro w w' ⟨hw, hasks, hrest⟩
    have hstep := hL.step m w w' ⟨hw, hasks⟩
    rw [Machine.run_succ, Machine.run_succ]
    rcases hm : m.step w with ⟨progress, w₁⟩
    rcases hm' : m.step w' with ⟨progress', w₁'⟩
    rw [hm, hm'] at hstep
    rw [hm] at hrest
    obtain ⟨rfl, hw₁⟩ := hstep
    cases progress with
    | running m₁ => exact ih m₁ w₁ w₁' ⟨hw₁, hrest⟩
    | halted o => exact ⟨rfl, hL.less_add fuel hw₁⟩

theorem finish (a : Activation) (fuel : Nat) : Matches
    (fun w w' => rel (k + fuel) w w' ∧ Machine.Keeping allowed fuel ⟨a, []⟩ w) (a.finish fuel)
    (a.finish fuel) (Equally (rel k)) (rel k) := by
  refine .bindEq (.lift (hL.run fuel _)) fun o => ?_
  unfold Outcome.report
  split
  · exact .pure fun _ _ hw => ⟨rfl, hw⟩
  · exact .throw _ fun _ _ hw => hw
  · exact .pure fun _ _ hw => ⟨rfl, hw⟩
  · exact .pure fun _ _ hw => ⟨rfl, hw⟩

end Lockstep

/-! ## Runs that are started from outside -/

namespace World

/-- Where a method of an owner starts to run on an object. -/
def startMethod (id definer : ObjectId) (name : String) (context : CallContext) (args : List Value) :
    Action Activation := do
  let p ← tryCatch (compiledMethod definer name) fun e => throw (blame id name e)
  return .start p id definer name context args

/-- Where a method starts to run that is called. -/
def startCall (h : Handle) (name : String) (args : List Value) : Action Activation := do
  let id := (← recordOf h).id
  match ← findMethod h name with
  | some (definer, _) => startMethod id definer name (.direct id) args
  | none => throw (.methodNotFound id name)

/-- Where a method starts to run that is invoked as a command. -/
def startCommand (h : Handle) (word : String) (args : List Value) (player : ObjectId)
    (argstr : String) : Action Activation := do
  let id := (← recordOf h).id
  match ← findCommand h word with
  | some (definer, name) => startMethod id definer name ⟨player, id, argstr⟩ args
  | none => throw (.methodNotFound id word)

/-- Where a script starts to run. -/
def startEval (this : ObjectId) (source : String) : Action Activation := do
  match Program.compile source (← get).session.runtime.customErrors with
  | .error e => throw (.methodFailed this "eval" (.compile e))
  | .ok p => return .start p this this "eval" (.direct this) []

variable (fuel : Nat)

theorem runMethod_eq (id definer : ObjectId) (name : String) (context : CallContext)
    (args : List Value) : runMethod fuel id definer name context args =
      startMethod id definer name context args >>= fun a => a.finish fuel := by
  simp only [runMethod, startMethod, bind_assoc, pure_bind]

theorem call_eq (h : Handle) (name : String) (args : List Value) :
    call fuel h name args = startCall h name args >>= fun a => a.finish fuel := by
  simp only [call, startCall, bind_assoc]
  refine bind_congr fun record => bind_congr fun found => ?_
  cases found with
  | some owner => exact runMethod_eq ..
  | none => rfl

theorem command_eq (h : Handle) (word : String) (args : List Value) (player : ObjectId)
    (argstr : String) : command fuel h word args player argstr =
      startCommand h word args player argstr >>= fun a => a.finish fuel := by
  simp only [command, startCommand, bind_assoc]
  refine bind_congr fun record => bind_congr fun found => ?_
  cases found with
  | some owner => exact runMethod_eq ..
  | none => rfl

theorem eval_eq (this : ObjectId) (source : String) :
    eval fuel this source = startEval this source >>= fun a => a.finish fuel := by
  simp only [eval, startEval, bind_assoc]
  refine bind_congr fun w => ?_
  cases Program.compile source w.session.runtime.customErrors with
  | error e => rfl
  | ok p => simp only [pure_bind]

end World

namespace Lockstep

variable {h h' : Handle} (hL : Lockstep rel at' allowed)
include hL

theorem startMethod (id definer : ObjectId) (name : String) (context : CallContext)
    (args : List Value) : Agree (rel k) (World.startMethod id definer name context args) :=
  .returns (.recover (hL.compiled k definer name) fun _ => .throw _ fun _ _ hw => hw) _

theorem startCall (name : String) (args : List Value) : Matches (Held (rel k) at' h h')
    (World.startCall h name args) (World.startCall h' name args) (Equally (rel k)) (rel k) := by
  refine .bindEq (.lift (hL.recordOf h h')) fun record => .bindEq (hL.resolved _ h h') fun found => ?_
  cases found with
  | some owner => exact hL.startMethod record.id owner.1 name _ args
  | none => exact .throw _ fun _ _ hw => hw

theorem startCommand (word : String) (args : List Value) (player : ObjectId) (argstr : String) :
    Matches (Held (rel k) at' h h') (World.startCommand h word args player argstr)
      (World.startCommand h' word args player argstr) (Equally (rel k)) (rel k) := by
  refine .bindEq (.lift (hL.recordOf h h')) fun record => .bindEq (hL.resolved _ h h') fun found => ?_
  cases found with
  | some owner => exact hL.startMethod record.id owner.1 owner.2 _ args
  | none => exact .throw _ fun _ _ hw => hw

theorem startEval (this : ObjectId) (source : String) :
    Agree (rel k) (World.startEval this source) := by
  refine .bind .get fun seen seen' => .assume (C := seen.session.runtime = seen'.session.runtime) ?_
    fun hruntime => .weaken ?_ fun _ _ hw => hw.2
  · rintro w w' ⟨⟨rfl, rfl⟩, hw⟩
    exact (hL.settings hw).1
  · rw [hruntime]
    cases Program.compile source seen'.session.runtime.customErrors with
    | error e => exact .throw _ fun _ _ hw => hw
    | ok p => exact .pure fun _ _ hw => ⟨rfl, hw⟩

/-- Runs that start alike end alike. -/
theorem finishes {P : World → World → Prop} {x y : Action Activation} (fuel : Nat)
    (hx : Matches P x y (Equally (rel (k + fuel))) (rel (k + fuel))) : Matches
    (fun w w' => P w w' ∧ ∀ a w₁, x.run w = (.ok a, w₁) → Machine.Keeping allowed fuel ⟨a, []⟩ w₁)
    (x >>= fun a => a.finish fuel) (y >>= fun a => a.finish fuel) (Equally (rel k)) (rel k) := by
  have hstart : Matches
      (fun w w' => P w w' ∧ ∀ a w₁, x.run w = (.ok a, w₁) → Machine.Keeping allowed fuel ⟨a, []⟩ w₁) x y
      (fun a b w w' => a = b ∧ rel (k + fuel) w w' ∧ Machine.Keeping allowed fuel ⟨a, []⟩ w)
      (rel k) := by
    rintro w w' ⟨hw, hkeeping⟩
    have hrun := hx w w' hw
    rcases hw₁ : x.run w with ⟨e | a, w₁⟩
    · rcases hw₂ : y.run w' with ⟨e' | b, w₂⟩
      · rw [hw₁, hw₂] at hrun
        exact ⟨hrun.1, hL.less_add fuel hrun.2⟩
      · rw [hw₁, hw₂] at hrun
        exact hrun.elim
    · rcases hw₂ : y.run w' with ⟨e' | b, w₂⟩
      · rw [hw₁, hw₂] at hrun
        exact hrun.elim
      · rw [hw₁, hw₂] at hrun
        exact ⟨hrun.1, hrun.2, hkeeping a w₁ hw₁⟩
  refine hstart.bind fun a b => ?_
  rintro w w' ⟨rfl, hw⟩
  exact hL.finish a fuel w w' hw

end Lockstep

/-- Where every parent is allowed nothing has to be known of a run. -/
theorem Machine.keeping_any (fuel : Nat) (m : Machine) (w : World) :
    m.Keeping (fun _ _ => True) fuel w := by
  induction fuel generalizing m w with
  | zero => trivial
  | succ fuel ih =>
    refine ⟨fun r f _ => ?_, ?_⟩
    · unfold Request.Within
      split
      · exact fun _ _ => trivial
      · trivial
    · split
      · exact ih _ _
      · trivial

end Lineage
