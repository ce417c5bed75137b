/-
  Lineage.Proofs.World.Reachable

  The worlds that a system can come to, and the compiled methods kept in them.

  A session is opened over a store and then asked for one operation after the other
  (`Operation`), on every handle that it ever gave out.  In between the background writer
  writes, time passes, and the store is changed from outside (`World.Reachable`).
  Whatever happens, a method is kept compiled only as long as a resident copy owns it and
  its source compiles to just that (`World.Reachable.kept_is_current`).
-/
import Lineage.Proofs.World.Saving
import Lineage.Proofs.World.Scripts

namespace Lineage

-- Nothing here depends on what the compiler makes of a source, or on how a run goes.
attribute [local irreducible] Program.compile Machine.run

/-- What a session can be asked for.  Runs of scripts are given fuel. -/
inductive Operation where
  | load (recycledToo : Bool) (id : ObjectId)
  | object (id : ObjectId)
  | create (parent : ObjectId) (properties : OrderedDict String Value)
    (methods : OrderedDict String MethodDef)
  | list (recycledToo : Bool)
  | invalidate (id : ObjectId)
  | recycle (id : ObjectId)
  | findByProperty (name : String) (wanted : Option Value)
  | ensureRoot
  | aliased (name : String)
  | setAlias (name : String) (target : ObjectId)
  | compiledMethod (definer : ObjectId) (name : String)
  | eval (fuel : Nat) (this : ObjectId) (source : String)
  | flush
  | shutdown
  | property (h : Handle) (name : String)
  | setProperty (h : Handle) (name : String) (v : Value)
  | removeProperty (h : Handle) (name : String)
  | findMethod (h : Handle) (name : String)
  | findCommand (h : Handle) (word : String)
  | setMethod (h : Handle) (name : String) (m : MethodDef)
  | removeMethod (h : Handle) (name : String)
  | viewGet (h : Handle) (key : String)
  | viewSet (h : Handle) (key : String) (v : Value)
  | setParent (h : Handle) (parent : ObjectId)
  | save (h : Handle)
  | saveLater (h : Handle)
  | refresh (h : Handle)
  | call (fuel : Nat) (h : Handle) (name : String) (args : List Value)
  | command (fuel : Nat) (h : Handle) (word : String) (args : List Value) (player : ObjectId)
    (argstr : String)

namespace Operation

/-- The handle that an operation is given. -/
def handle? : Operation → Option Handle
  | property h _ | setProperty h _ _ | removeProperty h _ | findMethod h _ | findCommand h _
  | setMethod h _ _ | removeMethod h _ | viewGet h _ | viewSet h _ _ | setParent h _ | save h
  | saveLater h | refresh h | call _ h _ _ | command _ h _ _ _ _ => some h
  | _ => none

/-- The world after an operation, also if it fails. -/
def after : Operation → World → World
  | load recycledToo id, w => ((World.loadWith recycledToo id).run w).2
  | object id, w => ((World.object id).run w).2
  | create parent properties methods, w => ((World.create parent properties methods).run w).2
  | list recycledToo, w => ((World.list recycledToo).run w).2
  | invalidate id, w => (World.invalidate id w).2
  | recycle id, w => ((World.recycle id).run w).2
  | findByProperty name wanted, w => ((World.findByProperty name wanted).run w).2
  | ensureRoot, w => (World.ensureRoot.run w).2
  | aliased name, w => ((World.alias? name).run w).2
  | setAlias name target, w => ((World.setAlias name target).run w).2
  | compiledMethod definer name, w => ((World.compiledMethod definer name).run w).2
  | eval fuel this source, w => ((World.eval fuel this source).run w).2
  | flush, w => (World.settle w).2
  | shutdown, w => (World.shutdown.run w).2
  | property h name, w => ((World.property? h name).run w).2
  | setProperty h name v, w => (World.setProperty h name v w).2
  | removeProperty h name, w => (World.removeProperty h name w).2
  | findMethod h name, w => ((World.findMethod h name).run w).2
  | findCommand h word, w => ((World.findCommand h word).run w).2
  | setMethod h name m, w => (World.setMethod h name m w).2
  | removeMethod h name, w => (World.removeMethod h name w).2
  | viewGet h key, w => ((World.viewGet h key).run w).2
  | viewSet h key v, w => ((World.viewSet h key v).run w).2
  | setParent h parent, w => ((World.setParent h parent).run w).2
  | save h, w => ((World.save h).run w).2
  | saveLater h, w => (World.saveLater h w).2
  | refresh h, w => ((World.refresh h).run w).2
  | call fuel h name args, w => ((World.call fuel h name args).run w).2
  | command fuel h word args player argstr, w =>
    ((World.command fuel h word args player argstr).run w).2

end Operation

/-- An operation that fails leaves the same behind as one that does not. -/
theorem Attempts.world {α ε : Type} {P I : World → Prop} {x : ExceptT ε (StateM World) α}
    (h : Attempts P x (fun _ => I) I) {w : World} (hw : P w) : I (x.run w).2 := by
  have hrun := h w hw
  show I (x w).2
  cases hr : (x w).1 with
  | ok a =>
    simp only [ExceptT.run, hr] at hrun
    exact hrun
  | error e =>
    simp only [ExceptT.run, hr] at hrun
    exact hrun

namespace World

/-- Every operation leaves what is kept of methods right. -/
theorem Coherent.operate {w : World} (hw : w.Coherent) (op : Operation)
    (hgiven : ∀ h, op.handle? = some h → w.session.Given h) : (op.after w).Coherent := by
  cases op with
  | load recycledToo id => exact (loadWith_guards recycledToo id).world hw
  | object id => exact (object_guards id).world hw
  | create parent properties methods => exact (create_guards parent properties methods).world hw
  | list recycledToo => exact (list_guards recycledToo).world hw
  | invalidate id => exact invalidate_keeps id w hw
  | recycle id => exact (recycle_guards id).world hw
  | findByProperty name wanted => exact (served_coherent.findByProperty name wanted).world hw
  | ensureRoot => exact ensureRoot_guards.world hw
  | aliased name => exact (served_coherent.alias? name).world hw
  | setAlias name target => exact (served_coherent.setAlias name target).world hw
  | compiledMethod definer name => exact (compiledMethod_guards definer name).world hw
  | eval fuel this source => exact (eval_guards served_coherent setsMethods_coherent fuel this source).world hw
  | flush => exact settle_keeps w hw
  | shutdown => exact shutdown_guards.world hw
  | property h name => exact (served_coherent.property? h name).world hw
  | setProperty h name v => exact setProperty_keeps h name v w hw
  | removeProperty h name => exact removeProperty_keeps h name w hw
  | findMethod h name => exact (served_coherent.findMethod h name).world hw
  | findCommand h word => exact (served_coherent.findCommand h word).world hw
  | setMethod h name m => exact setMethod_keeps h name m w hw
  | removeMethod h name => exact removeMethod_keeps h name w hw
  | viewGet h key => exact (served_coherent.viewGet h key).world hw
  | viewSet h key v => exact (served_coherent.viewSet h key v).world hw
  | setParent h parent => exact (setParent_guards h parent).world hw
  | save h => exact (save_guards h).world hw
  | saveLater h => exact saveLater_keeps h w hw
  | refresh h => exact (refresh_guards h).world ⟨hw, hgiven h rfl⟩
  | call fuel h name args =>
    exact (call_guards served_coherent setsMethods_coherent fuel h name args).world hw
  | command fuel h word args player argstr =>
    exact (command_guards served_coherent setsMethods_coherent fuel h word args player argstr).world hw

theorem Coherent.writeNext {w : World} (hw : w.Coherent) : w.writeNext.Coherent := by
  unfold World.writeNext
  cases w.session.queue with
  | nil => exact hw
  | cons job rest => exact ⟨hw.session.irrelevant _ _ _, applyJob_faithful hw.store job⟩

/-- The worlds that a system can come to.  A store may be changed from outside in every way that
leaves what is stored under an id with that id, as all store operations do
(`Store.Edit.faithful`). -/
inductive Reachable : World → Prop
  | start (store : Store) (runtime : RuntimeSettings) (hstore : store.Faithful) :
      Reachable ((openSession runtime).run (initial store runtime)).2
  | operate {w : World} (op : Operation) (h : Reachable w)
      (hgiven : ∀ h, op.handle? = some h → w.session.Given h) : Reachable (op.after w)
  | write {w : World} (h : Reachable w) : Reachable w.writeNext
  | outside {w : World} (h : Reachable w) (store : Store) (hstore : store.Faithful)
      (clock : Timestamp) (seed : Nat) : Reachable { w with store, clock, seed }

/-- Induction on what has happened; every single thing that happens keeps the world coherent. -/
theorem Reachable.coherent {w : World} (h : Reachable w) : w.Coherent := by
  induction h with
  | start store runtime hstore =>
    exact (openSession_guards runtime).world ⟨.start runtime, hstore⟩
  | operate op _ hgiven ih => exact ih.operate op hgiven
  | write _ ih => exact ih.writeNext
  | outside _ store hstore clock seed ih => exact ⟨ih.session, hstore⟩

/-- What a method is kept compiled to is what it is now: its owner is resident, and the resident
copy owns a method of this name whose source compiles to just that. -/
theorem Reachable.kept_is_current {w : World} (h : Reachable w) {definer : ObjectId}
    {programs : Dict String Program} (hdefiner : (definer, programs) ∈ w.session.compiled)
    {name : String} {p : Program} (hname : (name, p) ∈ programs) :
    ∃ owner m, w.session.resident.get? definer = some owner ∧
      (w.session.copyOf owner).record.id = definer ∧
      (w.session.copyOf owner).record.methods.get? name = some m ∧
      Program.compile m.source w.session.runtime.customErrors = .ok p := by
  have hvalid := h.coherent.session
  obtain ⟨owner, m, hres, hm, hp⟩ := hvalid.compiled hdefiner hname
  exact ⟨owner, m, hres, hvalid.named definer owner hres, hm, hp⟩

/-- A world in which a method of the root has been called for in its compiled form. -/
def greeted : World :=
  [.ensureRoot, .setMethod ⟨0⟩ "greet" { source := "return 1;" }, .compiledMethod .root "greet"].foldl
    (fun w op => Operation.after op w) ((openSession {}).run (initial (.memory {}) {})).2

/-- Whether a session keeps one program and no other. -/
def keepsOnly (s : Session) (definer : ObjectId) (name : String) : Bool :=
  match s.compiled with
  | [(owner, [(method, _)])] => owner == definer && method == name
  | _ => false

theorem keepsOnly_spec {s : Session} {definer : ObjectId} {name : String}
    (h : keepsOnly s definer name = true) : ∃ p, s.compiled = [(definer, [(name, p)])] := by
  unfold keepsOnly at h
  split at h
  · rename_i owner method p hs
    simp only [Bool.and_eq_true, beq_iff_eq] at h
    obtain ⟨rfl, rfl⟩ := h
    exact ⟨p, hs⟩
  · cases h

/-- The one program that is kept there is what the method of the root compiles to. -/
theorem Reachable.kept_is_current_greeted :
    ∃ p owner m, greeted.session.compiled = [(.root, [("greet", p)])] ∧
      greeted.session.resident.get? .root = some owner ∧
      (greeted.session.copyOf owner).record.methods.get? "greet" = some m ∧
      Program.compile m.source greeted.session.runtime.customErrors = .ok p := by
  have hreachable : Reachable greeted := by
    have hopened := Reachable.start (.memory {}) {} Store.Faithful.memory_nil
    have hrooted := hopened.operate .ensureRoot fun _ h => nomatch h
    have hset := hrooted.operate (.setMethod ⟨0⟩ "greet" { source := "return 1;" }) fun h hh => by
      cases hh
      show 0 < _
      decide +kernel
    exact hset.operate (.compiledMethod .root "greet") fun _ h => nomatch h
  obtain ⟨p, hp⟩ := keepsOnly_spec (show keepsOnly greeted.session .root "greet" = true by
    decide +kernel)
  obtain ⟨owner, m, hres, -, hm, hcompile⟩ :=
    kept_is_current hreachable (hp ▸ List.mem_singleton_self _) (List.mem_singleton_self _)
  exact ⟨p, owner, m, hp, hres, hm, hcompile⟩

end World

end Lineage
