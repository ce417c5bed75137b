/-
  Lineage.Proofs.World.Transparency

  A copy that is as it is stored need not be in memory.

  Whoever names objects by their ids may ask for them, read, search and change them, and
  have methods called and scripts run (`Demand`).  After a copy has been dropped that had
  no changes and was as it is stored, all this gets the same answers, and leaves the same
  stored, as if it were still there (`Grown.invalidate_unnoticed`).
-/
import Mathlib.Algebra.Ring.Nat
import Lineage.Proofs.World.Alike
import Lineage.Proofs.World.Numbering

namespace Lineage

-- Nothing here depends on what the compiler makes of a source, or on how a run goes.
attribute [local irreducible] Program.compile Machine.run

/-- What can be asked for by the ids of objects.  Runs of scripts are given fuel. -/
inductive Demand where
  | load (recycledToo : Bool) (id : ObjectId)
  | record (id : ObjectId)
  | property (id : ObjectId) (name : String)
  | findMethod (id : ObjectId) (name : String)
  | list (recycledToo : Bool)
  | findByProperty (name : String) (wanted : Option Value)
  | aliased (name : String)
  | setAlias (name : String) (target : ObjectId)
  | create (parent : ObjectId) (properties : OrderedDict String Value)
    (methods : OrderedDict String MethodDef)
  | recycle (id : ObjectId)
  | invalidate (id : ObjectId)
  | setParent (id parent : ObjectId)
  | setProperty (id : ObjectId) (name : String) (v : Value)
  | setMethod (id : ObjectId) (name : String) (m : MethodDef)
  | removeMethod (id : ObjectId) (name : String)
  | save (id : ObjectId)
  | saveLater (id : ObjectId)
  | call (fuel : Nat) (id : ObjectId) (name : String) (args : List Value)
  | command (fuel : Nat) (id : ObjectId) (word : String) (args : List Value) (player : ObjectId)
    (argstr : String)
  | eval (fuel : Nat) (this : ObjectId) (source : String)
  /-- Time passes. -/
  | wait (now : Timestamp)

/-- What is answered.  Handles are not: an object is described by its copy. -/
inductive Finding where
  | object (c : Option Copy)
  | record (r : Record)
  | value (v : Option Value)
  | method (found : Option (ObjectId × MethodDef))
  | objects (all : List Copy)
  | named (id : Option ObjectId)
  | whether (b : Bool)
  | done

namespace Demand

open World

/-- The answer to a demand. -/
def ask : Demand → Action Finding
  | load recycledToo id => do
    match ← loadWith recycledToo id with
    | some h => return .object (some (← copy h))
    | none => return .object none
  | record id => do return .record (← recordOf (← object id))
  | property id name => do return .value (← property? (← object id) name)
  | findMethod id name => do return .method (← World.findMethod (← object id) name)
  | list recycledToo => do
    let all ← World.list recycledToo
    let world ← get
    return .objects (all.map world.session.copyOf)
  | findByProperty name wanted => do
    let all ← World.findByProperty name wanted
    let world ← get
    return .objects (all.map world.session.copyOf)
  | aliased name => do return .named (← alias? name)
  | setAlias name target => do
    World.setAlias name target
    return .done
  | create parent properties methods => do
    return .object (some (← copy (← World.create parent properties methods)))
  | recycle id => do
    World.recycle id
    return .done
  | invalidate id => do
    World.invalidate id
    return .done
  | setParent id parent => do
    World.setParent (← object id) parent
    return .done
  | setProperty id name v => do
    World.setProperty (← object id) name v
    return .done
  | setMethod id name m => do
    World.setMethod (← object id) name m
    return .done
  | removeMethod id name => do return .whether (← World.removeMethod (← object id) name)
  | save id => do return .whether (← World.save (← object id))
  | saveLater id => do
    World.saveLater (← object id)
    return .done
  | call fuel id name args => do return .value (← World.call fuel (← object id) name args)
  | command fuel id word args player argstr => do
    return .value (← World.command fuel (← object id) word args player argstr)
  | eval fuel this source => do return .value (← World.eval fuel this source)
  | wait now => do
    modify fun w => { w with clock := now }
    return .done

/-- How many objects a demand may create. -/
def cost : Demand → Nat
  | create _ _ _ => 1
  | call fuel _ _ _ | command fuel _ _ _ _ _ | eval fuel _ _ => fuel
  | _ => 0

/-- The answers to demands, one after the other, and the world after them. -/
def askAll : List Demand → World → List (Except RuntimeError Finding) × World
  | [], w => ([], w)
  | d :: rest, w =>
    let (answer, w) := d.ask.run w
    let (answers, w) := askAll rest w
    (answer :: answers, w)

/-- How many objects demands may create. -/
def costs (demands : List Demand) : Nat := (demands.map cost).sum

end Demand

namespace World.Alike

open Demand

variable {k : Nat}

theorem copy (h h' : Handle) : Twins (Held (Alike k) Shared h h') (World.copy h) (World.copy h')
    (Equally (Held (Alike k) Shared h h')) :=
  fun _ _ hw => ⟨copies hw, hw⟩

/-- The copies that handles name. -/
theorem described {x : Action (List Handle)}
    (hx : Matches (Alike k) x x (Listed (Alike k) Shared []) (Alike k)) :
    Agree (Alike k) (do
      let all ← x
      let world ← get
      return .objects (all.map world.session.copyOf) : Action Finding) := by
  refine .bind hx fun all all' => .bind .get fun seen seen' => .pure ?_
  rintro _ _ ⟨⟨rfl, rfl⟩, pairs, rfl, rfl, hw, hheld⟩
  refine ⟨congrArg Finding.objects ?_, hw⟩
  rw [List.map_map, List.map_map]
  exact List.map_congr_left fun p hp => copies ⟨hw, hheld p (List.mem_append_left _ hp)⟩

/-- The demand is about an object that has to be there. -/
theorem asked {x : Handle → Action Finding} (id : ObjectId)
    (hx : ∀ h h', Matches (Held (Alike k) Shared h h') (x h) (x h') (Equally (Alike k)) (Alike k)) :
    Agree (Alike k) (do x (← World.object id) : Action Finding) :=
  .bind (alike_lockstep.object id) hx

/-- Runs that start alike end alike, whether or not what they run was kept compiled. -/
theorem finishes {x y : Action Activation} {P : World → World → Prop} (fuel : Nat)
    (hx : Matches P x y (Equally (Alike (k + fuel))) (Alike (k + fuel))) : Matches P
    (x >>= fun a => a.finish fuel) (y >>= fun a => a.finish fuel) (Equally (Alike k)) (Alike k) :=
  (alike_lockstep.finishes fuel hx).weaken fun _ _ hw => ⟨hw, fun _ _ _ => Machine.keeping_any _ _ _⟩

/-- A run is asked for that starts at an object that has to be there. -/
theorem askedToRun {x : Handle → Action Activation} {fuel : Nat} (id : ObjectId)
    (hx : ∀ h h', Matches (Held (Alike (k + fuel)) Shared h h') (x h) (x h')
      (Equally (Alike (k + fuel))) (Alike (k + fuel))) :
    Matches (Alike (k + fuel)) (do return .value (← x (← World.object id) >>= fun a => a.finish fuel) : Action Finding)
      (do return .value (← x (← World.object id) >>= fun a => a.finish fuel)) (Equally (Alike k)) (Alike k) := by
  refine .bind ((alike_lockstep.object (k := k + fuel) id).impl (fun _ _ hw => hw)
    (fun _ _ _ _ hw => hw) fun _ _ hw => alike_lockstep.less_add fuel hw) fun h h' => ?_
  exact (finishes fuel (hx h h')).returns _

theorem wait (now : Timestamp) : Twins (Alike k) (modify fun w => { w with clock := now })
    (modify fun w => { w with clock := now }) fun (_ _ : PUnit) => Alike k := fun _ _ hw =>
  ⟨⟨hw.left.session, hw.left.store⟩, ⟨hw.right.session, hw.right.store⟩,
    congrArg (fun v => { v with clock := now }) hw.view,
    hw.roomy.connected, hw.roomy.ordered, hw.roomy.fits, hw.roomy.unused⟩

/-- Every demand is answered alike, and leaves the worlds alike. -/
theorem ask (d : Demand) : Matches (Alike (k + d.cost)) d.ask d.ask (Equally (Alike k)) (Alike k) := by
  cases d with
  | load recycledToo id =>
    exact (load recycledToo id).found (.pure fun _ _ hw => ⟨rfl, hw⟩) fun h h' =>
      .bindEq (.lift (copy h h')) fun _ => .pure fun _ _ hw => ⟨rfl, hw.1⟩
  | record id =>
    exact asked id fun h h' => .bindEq (.lift (alike_lockstep.recordOf h h')) fun _ =>
      .pure fun _ _ hw => ⟨rfl, hw.1⟩
  | property id name => exact asked id fun h h' => (alike_lockstep.resolved _ h h').returns _
  | findMethod id name => exact asked id fun h h' => (alike_lockstep.resolved _ h h').returns _
  | list recycledToo => exact described (list recycledToo)
  | findByProperty name wanted => exact described (alike_lockstep.findByProperty name wanted)
  | aliased name => exact (alike_lockstep.alias? name).returns _
  | setAlias name target => exact (alike_lockstep.setAlias name target).returns _
  | create parent properties methods =>
    exact .bind (create parent properties methods) fun h h' => .bindEq (.lift (copy h h')) fun _ =>
      .pure fun _ _ hw => ⟨rfl, hw.1⟩
  | recycle id => exact (recycle id).returns _
  | invalidate id => exact .bind (.lift (invalidate id)) fun _ _ => .pure fun _ _ hw => ⟨rfl, hw⟩
  | setParent id parent => exact asked id fun h h' => (setParent h h' parent).returns _
  | setProperty id name v =>
    exact asked id fun h h' => .bind (.lift (setProperty h h' name v)) fun _ _ =>
      .pure fun _ _ hw => ⟨rfl, hw.1⟩
  | setMethod id name m =>
    exact asked id fun h h' => .bind (.lift (setMethod h h' name m)) fun _ _ =>
      .pure fun _ _ hw => ⟨rfl, hw.1⟩
  | removeMethod id name =>
    exact asked id fun h h' => .bindEq (.lift (removeMethod h h' name)) fun _ =>
      .pure fun _ _ hw => ⟨rfl, hw.1⟩
  | save id => exact asked id fun h h' => (save h h').returns _
  | saveLater id =>
    exact asked id fun h h' => .bind (.lift (saveLater h h')) fun _ _ =>
      .pure fun _ _ hw => ⟨rfl, hw⟩
  | call fuel id name args =>
    simp only [Demand.ask, call_eq]
    exact askedToRun id fun h h' => alike_lockstep.startCall name args
  | command fuel id word args player argstr =>
    simp only [Demand.ask, command_eq]
    exact askedToRun id fun h h' => alike_lockstep.startCommand word args player argstr
  | eval fuel this source =>
    simp only [Demand.ask, eval_eq]
    exact (finishes fuel (alike_lockstep.startEval this source)).returns _
  | wait now =>
    exact .bind (.lift (wait now)) fun _ _ => .pure fun _ _ hw => ⟨rfl, hw⟩

/-- Induction on the demands. -/
theorem askAll {demands : List Demand} {w w' : World} (hw : Alike (k + costs demands) w w') :
    (askAll demands w).1 = (askAll demands w').1 ∧
      Alike k (askAll demands w).2 (askAll demands w').2 := by
  induction demands generalizing w w' with
  | nil => exact ⟨rfl, hw⟩
  | cons d rest ih =>
    have hcosts : k + costs (d :: rest) = (k + costs rest) + d.cost := by
      simp only [costs, List.map_cons, List.sum_cons]
      omega
    have hask := ask d w w' (hcosts ▸ hw)
    simp only [Demand.askAll]
    rcases hrun : d.ask.run w with ⟨result, w₁⟩
    rcases hrun' : d.ask.run w' with ⟨result', w₁'⟩
    rw [hrun, hrun'] at hask
    -- Either both succeed, with one answer, or both fail, with one error.
    have hsame : result = result' ∧ Alike (k + costs rest) w₁ w₁' := by
      cases result with
      | ok a =>
        cases result' with
        | ok a' => exact ⟨congrArg Except.ok hask.1, hask.2⟩
        | error e' => exact hask.elim
      | error e =>
        cases result' with
        | ok a' => exact hask.elim
        | error e' => exact ⟨congrArg Except.error hask.1, hask.2⟩
    obtain ⟨rfl, hw₁⟩ := hsame
    obtain ⟨hanswers, hafter⟩ := ih hw₁
    exact ⟨congrArg (result :: ·) hanswers, hafter⟩

end World.Alike

/-- A copy without changes is made up of a record. -/
theorem Copy.eq_of_clean {c : Copy} (h : c.dirty.isClean = true) : c = { record := c.record } := by
  obtain ⟨record, header, properties, methods⟩ := c
  simp only [Dirty.isClean, Bool.and_eq_true, Bool.not_eq_true', List.isEmpty_iff] at h
  obtain ⟨⟨rfl, rfl⟩, rfl⟩ := h
  rfl

namespace World

variable {w : World} {k : Nat}

/-! ## Worlds in which numbers are not used twice -/

/-- The worlds that a system can come to whose store was empty once, with `k` objects that can still
be created.  Others may edit what is stored, too, but may not use numbers that are still to be
given. -/
inductive Grown : Nat → World → Prop
  | start {k : Nat} {s : Store} (hs : s = .memory {} ∨ s = .durable {}) (hk : k < 2 ^ 63)
      (runtime : RuntimeSettings) : Grown k ((openSession runtime).run (initial s runtime)).2
  | happens {k : Nat} {w : World} (e : Happening) (h : Grown (k + e.cost) w)
      (he : e.Proper (fun _ _ => True) w) : Grown k (e.after w)
  | outside {k : Nat} {w : World} (h : Grown k w) (s : Store) (hs : s.Faithful) (hfree : s.Numbered k)
      (hnext : ∀ n, s.next = .ok n → ∃ m, w.store.next = .ok m ∧ m.toInt ≤ n.toInt) :
      Grown k { w with store := s }

/-- Induction on what has happened. -/
theorem Grown.numbered (h : Grown k w) : w.Coherent ∧ w.Numbered k := by
  induction h with
  | @start k s hs hk runtime =>
    have hc := Numbered.coherent_initial hs runtime
    exact ⟨(openSession_guards runtime).world hc, numbered_upheld.reopened hc (.start hs hk runtime) runtime⟩
  | happens e _ he ih =>
    exact ⟨ih.1.happens e he, numbered_upheld.happens ih.1 e ih.2 (he.mono fun op w _ => op.permitted_any w)⟩
  | outside _ s hs hfree hnext ih =>
    refine ⟨⟨ih.1.session, hs⟩, hfree, fun n hn h hgiven => ?_⟩
    obtain ⟨m, hm, hle⟩ := hnext n hn
    exact Int.lt_of_lt_of_le (ih.2.copies m hm h hgiven) hle

/-- Under numbers that are still to be given nothing is seen. -/
theorem Numbered.view (hw : w.Numbered k) (hc : w.Coherent) (hconnected : w.store.isConnected = true) :
    w.view.Roomy k := by
  obtain ⟨hconnected', hordered, hnext⟩ := drained_frame hc
  have hsame := w.drained_same
  have hnext' : w.view.store.next = w.store.next := hsame.next.trans hnext
  refine ⟨hsame.isConnected.trans (hconnected'.trans hconnected),
    hsame.ordered.mpr (hordered hw.store.ordered), fun n hn => hw.store.fits n (hnext' ▸ hn),
    fun n hn id hid => ?_⟩
  have hn' : w.store.next = .ok n := hnext' ▸ hn
  have hdrained := drained_absent hc (hw.store.unused n hn' id hid)
  have habsent : w.session.resident.get? id = none := by
    cases hres : w.session.resident.get? id with
    | none => rfl
    | some h =>
      have hlt : (w.session.copyOf h).record.id.number.toInt < n.toInt :=
        hw.copies n hn' h (hc.session.given id h hres)
      rw [hc.session.named id h hres] at hlt
      omega
  refine ⟨?_, (congrFun hsame.read id).trans hdrained⟩
  show w.seen id = _
  rw [seen_absent habsent, Store.fresh, hdrained]
  rfl

/-! ## Leaving memory -/

/-- A copy without changes that is as it is stored leaves memory unnoticed. -/
theorem Alike.invalidated (hw : w.Coherent) (hroomy : w.view.Roomy k) {id : ObjectId} {h : Handle}
    (hat : w.At id h) (hclean : (w.session.copyOf h).dirty.isClean = true)
    (hstored : w.drained.read id = .ok (some (w.session.copyOf h).record)) :
    Alike k w (World.invalidate id w).2 := by
  refine ⟨hw, invalidate_keeps id w hw, ?_, hroomy⟩
  show World.view { w with session := w.session.dropping id } = w.view
  rw [view_dropping hw]
  have hcopy := Copy.eq_of_clean hclean
  have hread : w.view.store.read id = .ok (some (w.session.copyOf h).record) :=
    (congrFun w.drained_same.read id).trans hstored
  have hseen : (w.view.drop id).seen = w.view.seen := by
    funext other
    show (if other = id then w.view.store.fresh id else w.seen other) = w.seen other
    split
    · rename_i hother
      rw [hother, hat.seen, hcopy, Store.fresh, hread]
      rfl
    · rfl
  exact congrArg (fun seen => { w.view with seen }) hseen

/-- Whether a copy that is as it is stored is in memory cannot be told by any demands that name
objects by their ids: they get the same answers, and the same is stored after them. -/
theorem Grown.invalidate_unnoticed (demands : List Demand) (hw : Grown (Demand.costs demands) w)
    (hconnected : w.store.isConnected = true) {id : ObjectId} {h : Handle}
    (hresident : w.session.resident.get? id = some h)
    (hclean : (w.session.copyOf h).dirty.isClean = true)
    (hstored : w.drained.read id = .ok (some (w.session.copyOf h).record)) :
    (Demand.askAll demands (invalidate id w).2).1 = (Demand.askAll demands w).1 ∧
      (Demand.askAll demands (invalidate id w).2).2.drained.Same
        (Demand.askAll demands w).2.drained := by
  obtain ⟨hc, hnumbered⟩ := hw.numbered
  have halike := Alike.invalidated hc (hnumbered.view hc hconnected) hresident hclean hstored
  rw [← Nat.zero_add (Demand.costs demands)] at halike
  obtain ⟨hanswers, hafter⟩ := Alike.askAll halike
  exact ⟨hanswers.symm, congrArg View.store hafter.view⟩

/-- A world in which the root has been created. -/
def rooted : World :=
  Operation.ensureRoot.after ((openSession {}).run (initial (.memory {}) {})).2

/-- The root is a copy that is as it is stored.  It is given a property, copied by a child, and read
by a script, with or without that copy. -/
theorem Grown.invalidate_unnoticed_rooted :
    let demands : List Demand := [.setProperty .root "colour" (.str "red"), .save .root,
      .create .root {} {}, .property ⟨1⟩ "colour", .eval 50 ⟨1⟩ "return this.colour;"]
    (Demand.askAll demands (invalidate .root rooted).2).1 = (Demand.askAll demands rooted).1 ∧
      (Demand.askAll demands (invalidate .root rooted).2).2.drained.Same
        (Demand.askAll demands rooted).2.drained := by
  intro demands
  have hopened : Grown (Demand.costs demands + 1) ((openSession {}).run (initial (.memory {}) {})).2 :=
    .start (.inl rfl) (by decide) {}
  have hgrown : Grown (Demand.costs demands) rooted :=
    hopened.happens (.operate .ensureRoot) ⟨fun _ h => (nomatch h), trivial⟩
  exact invalidate_unnoticed demands hgrown (h := ⟨0⟩) rfl rfl rfl rfl

end World

end Lineage
