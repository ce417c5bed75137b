/-
  Lineage.Proofs.World.Scripts

  What scripts leave true of a world.

  All that a script does in the world it does through a few operations of the runtime.
  What each of these keeps (`Served`) is kept by whatever the running code asks for; if
  setting a method keeps it too, one step of the machine keeps it, and by induction on
  the fuel so does a run.

  So no script makes the compiled methods of a session wrong (`served_coherent`): a
  method is kept compiled in one place only, right after its owner has been loaded and
  its source compiled (`compiledMethod_guards`).
-/
import Lineage.Machine.Call
import Lineage.Proofs.World.Coherence

namespace Lineage

-- Nothing here depends on what the compiler makes of a source.
attribute [local irreducible] Program.compile

namespace World

/-- What is kept by everything that scripts do, except for setting methods. -/
structure Served (I : World → Prop) : Prop where
  load (id : ObjectId) : Guards I (load id)
  list : Guards I (list false)
  resolve {α : Type} (h : Handle) (probe : Record → Option α) : Guards I (resolve h probe)
  create (parent : ObjectId) (properties : OrderedDict String Value) :
    Guards I (create parent properties {})
  compiledMethod (definer : ObjectId) (name : String) : Guards I (compiledMethod definer name)
  setProperty (h : Handle) (name : String) (v : Value) : Keeps I (setProperty h name v)
  removeMethod (h : Handle) (name : String) : Keeps I (removeMethod h name)
  setParent (h : Handle) (parent : ObjectId) : Guards I (setParent h parent)
  recycle (id : ObjectId) : Guards I (recycle id)
  save (h : Handle) : Guards I (save h)
  saveLater (h : Handle) : Keeps I (saveLater h)
  draw (limit : Int64) : Keeps I (ScriptAction.draw limit)

/-- Setting any method keeps it, too. -/
def SetsMethods (I : World → Prop) : Prop := ∀ h name m, Keeps I (setMethod h name m)

/-! ## Compiled methods -/

/-- What a method is compiled to is kept while its owner is resident. -/
theorem compiledMethod_guards (definer : ObjectId) (name : String) :
    Guards Coherent (compiledMethod definer name) := by
  refine .bind .get fun seen => ?_
  cases keptProgram seen.session definer name with
  | some p => exact .pure _ fun _ hw => hw.2
  | none =>
    refine .bind ((loadWith_attempts true definer).weaken fun _ hw => hw.2) fun found => ?_
    cases found with
    | none => exact .throw _ fun _ hw => hw.1
    | some h =>
      refine .bind (.lift (recordOf_holds h)) fun record => ?_
      cases hm : record.methods.get? name with
      | none => exact .throw _ fun _ hw => hw.2.1
      | some m =>
        refine .bind .get fun now => ?_
        cases hp : Program.compile m.source now.session.runtime.customErrors with
        | error e => exact .throw _ fun _ hw => hw.2.2.1
        | ok p =>
          refine .bind (.lift ?_) fun _ => .pure _ fun _ hw => hw
          rintro w ⟨rfl, rfl, hw, hres⟩
          exact ⟨hw.session.keeping (hres h rfl) hm hp, hw.store⟩

theorem draw_keeps (limit : Int64) : Keeps Coherent (ScriptAction.draw limit) := by
  intro w hw
  unfold ScriptAction.draw
  dsimp only
  exact ⟨hw.session, hw.store⟩

/-- No script makes compiled methods wrong. -/
theorem served_coherent : Served Coherent where
  load := load_guards
  list := list_guards false
  resolve := resolve_guards
  create parent properties := create_guards parent properties {}
  compiledMethod := compiledMethod_guards
  setProperty := setProperty_keeps
  removeMethod := removeMethod_keeps
  setParent := setParent_guards
  recycle := recycle_guards
  save := save_guards
  saveLater := saveLater_keeps
  draw := draw_keeps

theorem setsMethods_coherent : SetsMethods Coherent := setMethod_keeps

end World

open World

variable {I : World → Prop}

/-! ## Aliases, searches and views -/

namespace World.Served

variable (hI : Served I)
include hI

theorem object (id : ObjectId) : Guards I (object id) := by
  refine .bind (hI.load id) fun found => ?_
  cases found with
  | some h => exact .pure _ fun _ hw => hw
  | none => exact .throw _ fun _ hw => hw

theorem property? (h : Handle) (name : String) : Guards I (property? h name) := hI.resolve h _

theorem hasProperty (h : Handle) (name : String) : Guards I (hasProperty h name) :=
  .bind (hI.property? h name) fun _ => .pure _ fun _ hw => hw

theorem findMethod (h : Handle) (name : String) : Guards I (findMethod h name) := hI.resolve h _

theorem hasMethod (h : Handle) (name : String) : Guards I (hasMethod h name) :=
  .bind (hI.findMethod h name) fun _ => .pure _ fun _ hw => hw

theorem findCommand (h : Handle) (word : String) : Guards I (findCommand h word) := hI.resolve h _

theorem alias? (name : String) : Guards I (alias? name) := by
  refine .bind (hI.load .root) fun found => ?_
  cases found with
  | none => exact .pure _ fun _ hw => hw
  | some h => exact .bind (.lift (recordOf_keeps h)) fun _ => .pure _ fun _ hw => hw

theorem setAlias (name : String) (target : ObjectId) : Guards I (setAlias name target) :=
  .bind (hI.object .root) fun h => .bind (.lift (recordOf_keeps h)) fun _ =>
    .bind (.lift (hI.setProperty h _ _)) fun _ => .bind (hI.save h) fun _ =>
    .pure _ fun _ hw => hw

theorem havingProperty (name : String) (wanted : Option Value) (handles : List Handle) :
    Guards I (havingProperty name wanted handles) := by
  induction handles with
  | nil => exact .pure _ fun _ hw => hw
  | cons h rest ih =>
    exact .bind (hI.property? h name) fun _ => .bind ih fun _ => .pure _ fun _ hw => hw

theorem findByProperty (name : String) (wanted : Option Value) :
    Guards I (findByProperty name wanted) :=
  .bind hI.list fun handles => hI.havingProperty name wanted handles

theorem viewValue (h : Handle) (key : String) : Guards I (viewValue h key) := by
  refine .bind (.lift (recordOf_keeps h)) fun record => ?_
  split
  · exact .pure _ fun _ hw => hw
  · exact .pure _ fun _ hw => hw
  · exact .pure _ fun _ hw => hw
  · exact hI.property? h key

theorem viewGet (h : Handle) (key : String) : Guards I (viewGet h key) := by
  refine .bind (hI.viewValue h key) fun found => ?_
  cases found with
  | some v => exact .pure _ fun _ hw => hw
  | none => exact .bind (hI.hasMethod h key) fun _ => .pure _ fun _ hw => hw

theorem viewSet (h : Handle) (key : String) (v : Value) : Guards I (viewSet h key v) := by
  have hset : Guards I (do World.setProperty h key v; World.saveLater h : Action Unit) :=
    .bind (.lift (hI.setProperty h key v)) fun _ => .lift (hI.saveLater h)
  unfold World.viewSet
  dsimp only
  split
  · exact .thrown _ fun _ hw => hw
  · exact hset

end World.Served

/-! ## Functions -/

namespace ScriptAction

theorem idOf_guards (v : Value) : Guards I (idOf v) := by
  unfold idOf
  split
  · exact .pure _ fun _ hw => hw
  · exact .throw _ fun _ hw => hw

variable (hI : Served I)
include hI

theorem objectOf_guards (v : Value) : Guards I (objectOf v) := by
  refine .bind (idOf_guards v) fun id => .bind (hI.load id).forScript fun found => ?_
  cases found with
  | some h => exact .pure _ fun _ hw => hw
  | none => exact .throw _ fun _ hw => hw

theorem createObject_guards (parent : ObjectId) (properties : OrderedDict String Value) :
    Guards I (createObject parent properties) := by
  have hcreate : Guards I (do
      let h ← (create parent properties {}).forScript
      return .obj (← recordOf h).id : ScriptAction Value) :=
    .bind (hI.create parent properties).forScript fun h =>
      .bind (.lift (recordOf_keeps h)) fun _ => .pure _ fun _ hw => hw
  unfold createObject
  split
  · refine .bind (hI.load parent).forScript fun found => ?_
    dsimp only
    split
    · exact .thrown _ fun _ hw => hw
    · exact hcreate
  · exact hcreate

theorem replaceMethod_guards (hset : SetsMethods I) (h : Handle) (name source : String) :
    Guards I (replaceMethod h name source) := by
  refine .bind .get fun w => .weaken ?_ fun _ hw => hw.2
  cases Program.compile source w.session.runtime.customErrors with
  | error e => exact .throw _ fun _ hw => hw
  | ok p =>
    exact .bind (.lift (recordOf_keeps h)) fun _ => .bind (.lift (hset h name _)) fun _ =>
      .lift (hI.saveLater h)

theorem random_guards (args : List Value) : Guards I (random args) := by
  unfold random
  split
  · exact .lift (hI.draw _)
  · split
    · exact .throw _ fun _ hw => hw
    · exact .lift (hI.draw _)
  · exact .throw _ fun _ hw => hw

theorem builtin_guards (f : Builtin) (hset : f = .setMethod → SetsMethods I) (args : List Value) :
    Guards I (builtin f args) := by
  unfold builtin
  split
  -- `create`
  · exact createObject_guards hI _ _
  · exact .bind (idOf_guards _) fun _ => createObject_guards hI _ _
  · exact .bind (idOf_guards _) fun _ => createObject_guards hI _ _
  -- `recycle`
  · exact .bind (objectOf_guards hI _) fun h => .bind (.lift (recordOf_keeps h)) fun record =>
      .bind (hI.recycle record.id).forScript fun _ => .pure _ fun _ hw => hw
  -- `valid` and `parent`
  · exact .bind (idOf_guards _) fun id => .bind (hI.load id).forScript fun _ =>
      .pure _ fun _ hw => hw
  · exact .bind (objectOf_guards hI _) fun h => .bind (.lift (recordOf_keeps h)) fun _ =>
      .pure _ fun _ hw => hw
  -- `chparent`
  · exact .bind (objectOf_guards hI _) fun h => .bind (idOf_guards _) fun parent =>
      .bind (hI.setParent h parent).forScript fun _ => .pure _ fun _ hw => hw
  -- `alias` and `set_alias`
  · refine .bind (hI.alias? _).forScript fun found => ?_
    cases found with
    | some id => exact .pure _ fun _ hw => hw
    | none => exact .throw _ fun _ hw => hw
  · exact .bind (idOf_guards _) fun target => .bind (hI.setAlias _ target).forScript fun _ =>
      .pure _ fun _ hw => hw
  -- `properties` and `methods`
  · exact .bind (objectOf_guards hI _) fun h => .bind (.lift (recordOf_keeps h)) fun _ =>
      .pure _ fun _ hw => hw
  · exact .bind (objectOf_guards hI _) fun h => .bind (.lift (recordOf_keeps h)) fun _ =>
      .pure _ fun _ hw => hw
  -- `has_property` and `has_method`
  · exact .bind (objectOf_guards hI _) fun h => .bind (hI.hasProperty h _).forScript fun _ =>
      .pure _ fun _ hw => hw
  · exact .bind (objectOf_guards hI _) fun h => .bind (hI.hasMethod h _).forScript fun _ =>
      .pure _ fun _ hw => hw
  -- `set_method` and `remove_method`
  · exact .bind (objectOf_guards hI _) fun h => .bind (replaceMethod_guards hI (hset rfl) h _ _)
      fun _ => .pure _ fun _ hw => hw
  · exact .bind (objectOf_guards hI _) fun h => .bind (.lift (hI.removeMethod h _)) fun _ =>
      .bind (.lift (hI.saveLater h)) fun _ => .pure _ fun _ hw => hw
  -- `find_by_property`
  · exact .bind (hI.findByProperty _ _).forScript fun _ => .bind .get fun _ =>
      .pure _ fun _ hw => hw.2
  -- `save`, `time` and `random`
  · exact .bind (objectOf_guards hI _) fun h => .bind (hI.save h).forScript fun _ =>
      .pure _ fun _ hw => hw
  · exact .bind .get fun _ => .pure _ fun _ hw => hw.2
  · exact random_guards hI _
  -- Arguments that the function does not take.
  · exact .throw _ fun _ hw => hw

end ScriptAction

theorem Builtin.call_guards (hI : Served I) (f : Builtin) (hset : f = .setMethod → SetsMethods I)
    (args : List Value) : Guards I (f.call args) := by
  unfold Builtin.call
  refine .bind (Q := fun _ => I) ?_ fun _ => ?_
  · cases f.check args with
    | ok _ => exact .pure _ fun _ hw => hw
    | error e => exact .throw _ fun _ hw => hw
  · split
    · rename_i result _
      cases result with
      | ok v => exact .pure _ fun _ hw => hw
      | error e => exact .throw _ fun _ hw => hw
    · exact ScriptAction.builtin_guards hI f hset args

/-! ## The machine -/

namespace Machine

theorem objectOperand_guards (v : Value) : Guards I (objectOperand v) := by
  unfold objectOperand
  split
  · exact .pure _ fun _ hw => hw
  · exact .throw _ fun _ hw => hw

theorem textOperand_guards (what : String) (v : Value) : Guards I (textOperand what v) := by
  unfold textOperand
  split
  · exact .pure _ fun _ hw => hw
  · exact .throw _ fun _ hw => hw

theorem respond_keeps (m : Machine) {action : ScriptAction Value} (h : Guards I action) :
    Keeps I (serve.respond m action) := by
  refine .bind h.run fun r => ?_
  cases r with
  | ok v => exact .pure _ fun _ hw => hw
  | error e => exact .pure _ fun _ hw => hw

variable (hI : Served I)
include hI

theorem liveObject_guards (id : ObjectId) : Guards I (liveObject id) := by
  refine .bind (hI.load id).forScript fun found => ?_
  cases found with
  | some h => exact .pure _ fun _ hw => hw
  | none => exact .throw _ fun _ hw => hw

theorem getProp_guards (object property : Value) : Guards I (getProp object property) := by
  refine .bind (objectOperand_guards object) fun id => .bind (textOperand_guards _ property) fun name =>
    .bind (liveObject_guards hI id) fun h => .bind (hI.viewValue h name).forScript fun found => ?_
  cases found with
  | some v => exact .pure _ fun _ hw => hw
  | none => exact .throw _ fun _ hw => hw

theorem putProp_guards (object property v : Value) : Guards I (putProp object property v) :=
  .bind (objectOperand_guards object) fun id => .bind (textOperand_guards _ property) fun name =>
    .bind (liveObject_guards hI id) fun h => .bind (hI.viewSet h name v).forScript fun _ =>
    .pure _ fun _ hw => hw

section

variable {Q : Program → World → Prop}
  (hcompiled : ∀ definer name, Attempts I (compiledMethod definer name) Q I)
include hcompiled

omit hI in
theorem programFor_attempts (definer : ObjectId) (name : String) :
    Attempts I (programFor definer name) Q I := by
  refine .bind (.lift (hcompiled definer name).run) fun r => ?_
  cases r with
  | ok p => exact .pure _ fun _ hw => hw
  | error e =>
    dsimp only
    split
    · rename_i heq
      cases heq
    · exact .throw _ fun _ hw => hw
    · exact .throw _ fun _ hw => hw

/-- What is known of all compiled methods is known of the method that is entered. -/
theorem enterMethod_attempts (a : Activation) (depth : Nat) (object name args : Value) :
    Attempts I (enterMethod a depth object name args) (fun callee => Q callee.frame.program) I := by
  refine .bind (objectOperand_guards object) fun id => .bind (textOperand_guards _ name) fun method => ?_
  dsimp only
  split
  · refine .bind .get fun w => .weaken ?_ fun _ hw => hw.2
    split
    · exact .thrown _ fun _ hw => hw
    · refine .bind (liveObject_guards hI id) fun h => .bind (hI.findMethod h method).forScript
        fun found => ?_
      cases found with
      | none => exact .throw _ fun _ hw => hw
      | some owner =>
        exact .bind (programFor_attempts hcompiled owner.1 method) fun _ => .pure _ fun _ hw => hw
  · exact .throw _ fun _ hw => hw

end

variable (hset : SetsMethods I)
include hset

/-- Whatever running code asks of the world. -/
theorem serve_keeps (m : Machine) (r : Request) : Keeps I (m.serve r) := by
  cases r with
  | getProp object property => exact respond_keeps m (getProp_guards hI object property)
  | putProp object property v => exact respond_keeps m (putProp_guards hI object property v)
  | callBuiltin f args => exact respond_keeps m (f.call_guards hI (fun _ => hset) args)
  | callMethod object name args =>
    refine .bind
      (enterMethod_attempts hI hI.compiledMethod m.running m.callers.length object name args).run fun r => ?_
    cases r with
    | ok a => exact .pure _ fun _ hw => hw
    | error e => exact .pure _ fun _ hw => hw

theorem step_keeps (m : Machine) : Keeps I m.step := by
  unfold step
  split
  · exact .pure _ fun _ hw => hw
  · exact .pure _ fun _ hw => hw
  · exact .pure _ fun _ hw => hw
  · exact serve_keeps hI hset _ _
  · exact .pure _ fun _ hw => hw

/-- Induction on the number of steps. -/
theorem run_keeps (fuel : Nat) (m : Machine) : Keeps I (run fuel m) := by
  induction fuel generalizing m with
  | zero => exact .pure _ fun _ hw => hw
  | succ fuel ih =>
    refine .bind (step_keeps hI hset m) fun progress => ?_
    cases progress with
    | running m' => exact ih m'
    | halted o => exact .pure _ fun _ hw => hw

end Machine

/-! ## Calls from outside -/

section

variable (hI : Served I) (hset : SetsMethods I)
include hI hset

theorem Activation.finish_guards (a : Activation) (fuel : Nat) : Guards I (a.finish fuel) := by
  refine .bind (.lift (Machine.run_keeps hI hset fuel _)) fun o => ?_
  unfold Outcome.report
  split
  · exact .pure _ fun _ hw => hw
  · exact .throw _ fun _ hw => hw
  · exact .pure _ fun _ hw => hw
  · exact .pure _ fun _ hw => hw

namespace World

theorem runMethod_guards (fuel : Nat) (id definer : ObjectId) (name : String) (context : CallContext)
    (args : List Value) : Guards I (runMethod fuel id definer name context args) :=
  .bind (.recover (hI.compiledMethod definer name) fun _ => .throw _ fun _ hw => hw) fun _ =>
    Activation.finish_guards hI hset _ fuel

theorem call_guards (fuel : Nat) (h : Handle) (name : String) (args : List Value) :
    Guards I (call fuel h name args) := by
  refine .bind (.lift (recordOf_keeps h)) fun record => .bind (hI.findMethod h name) fun found => ?_
  cases found with
  | some owner => exact runMethod_guards hI hset fuel record.id owner.1 name _ args
  | none => exact .throw _ fun _ hw => hw

theorem command_guards (fuel : Nat) (h : Handle) (word : String) (args : List Value)
    (player : ObjectId) (argstr : String) : Guards I (command fuel h word args player argstr) := by
  refine .bind (.lift (recordOf_keeps h)) fun record => .bind (hI.findCommand h word) fun found => ?_
  cases found with
  | some owner => exact runMethod_guards hI hset fuel record.id owner.1 owner.2 _ args
  | none => exact .throw _ fun _ hw => hw

theorem eval_guards (fuel : Nat) (this : ObjectId) (source : String) :
    Guards I (eval fuel this source) := by
  refine .bind .get fun w => .weaken ?_ fun _ hw => hw.2
  cases Program.compile source w.session.runtime.customErrors with
  | error e => exact .throw _ fun _ hw => hw
  | ok p => exact Activation.finish_guards hI hset _ fuel

end World

end

/-! ## Opening -/

namespace World

theorem ensureRoot_guards : Guards Coherent ensureRoot := by
  refine .bind (load_guards .root) fun found => ?_
  cases found with
  | some h => exact .pure _ fun _ hw => hw
  | none =>
    have hcreate : Guards Coherent (do
        let h ← create .nothing (.ofList [(aliasProperty, .map [])]) {}
        if (← recordOf h).id ≠ .root then throw (.notFound .root)
        return h : Action Handle) := by
      refine .bind (create_guards _ _ _) fun h => .bind (.lift (recordOf_keeps h)) fun record => ?_
      dsimp only
      split
      · exact .thrown _ fun _ hw => hw
      · exact .pure _ fun _ hw => hw
    refine .bind (.lift settle_keeps) fun _ => .bind (access_guards fun s => .list s true) fun all => ?_
    dsimp only
    split
    · exact .thrown _ fun _ hw => hw
    · exact hcreate

theorem openSession_guards (runtime : RuntimeSettings) : Guards Coherent (openSession runtime) :=
  .bind (access_guards fun s => .connect s) fun _ =>
    .lift fun _ hw => ⟨.start runtime, hw.store⟩

end World

end Lineage
