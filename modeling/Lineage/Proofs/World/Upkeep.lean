/-
  Lineage.Proofs.World.Upkeep

  What stays true of a world whatever is asked of it.

  All that operations do to a world they do in a few ways: waiting writes are applied, a
  record that was read becomes resident, a copy is changed or sent to the store, an object
  is created, recycled or given another parent.  What each of these keeps (`Upheld`) is
  kept by scripts (`Upheld.lockstep`) and by every operation (`Upheld.operate`).  What is
  kept may depend on how many objects can still be created.
-/
import Lineage.Proofs.Timestamp
import Lineage.Proofs.World.LockstepRuns
import Lineage.Proofs.World.Reachable
import Lineage.Proofs.World.Reading
import Lineage.Proofs.World.Views

namespace Lineage

-- Nothing here depends on what the compiler makes of a source, or on how a run goes.
attribute [local irreducible] Program.compile Machine.run

/-- Two things that come of an operation come of it together. -/
theorem Attempts.and {α ε : Type} {P P' E E' : World → Prop} {Q Q' : α → World → Prop}
    {x : ExceptT ε (StateM World) α} (hx : Attempts P x Q E) (hx' : Attempts P' x Q' E') :
    Attempts (fun w => P w ∧ P' w) x (fun a w => Q a w ∧ Q' a w) fun w => E w ∧ E' w := by
  intro w hw
  have h := hx w hw.1
  have h' := hx' w hw.2
  rcases hrun : x.run w with ⟨e | a, w₁⟩
  · rw [hrun] at h h'
    exact ⟨h, h'⟩
  · rw [hrun] at h h'
    exact ⟨h, h'⟩

/-- What is left of a world is all that counts. -/
theorem Attempts.of_world {α ε : Type} {P I : World → Prop} {x : ExceptT ε (StateM World) α}
    (h : ∀ w, P w → I (x.run w).2) : Attempts P x (fun _ => I) I := by
  intro w hw
  have hafter := h w hw
  rcases hrun : x.run w with ⟨e | a, w₁⟩
  · rw [hrun] at hafter
    exact hafter
  · rw [hrun] at hafter
    exact hafter

namespace World

/-! ## Bringing objects into memory -/

/-- What stays true when objects are brought into memory. -/
structure Steady (J : World → Prop) : Prop where
  same : ∀ {w}, J w → ∀ {s : Store}, s.Same w.store → J { w with store := s }
  settled : ∀ {w : World}, w.Coherent → J w → J w.settled
  adopted : ∀ {w : World}, w.Coherent → J w → w.session.queue = [] → ∀ {r : Record},
    w.store.read r.id = .ok (some r) → w.session.resident.get? r.id = none →
    J { w with session := w.session.adopting r }

namespace Steady

variable {J K : World → Prop}

theorem and (hJ : Steady J) (hK : Steady K) : Steady fun w => J w ∧ K w where
  same hw _ hs := ⟨hJ.same hw.1 hs, hK.same hw.2 hs⟩
  settled hc hw := ⟨hJ.settled hc hw.1, hK.settled hc hw.2⟩
  adopted hc hw hq _ hr hnew := ⟨hJ.adopted hc hw.1 hq hr hnew, hK.adopted hc hw.2 hq hr hnew⟩

variable (hJ : Steady J)
include hJ

theorem settle : Keeps (fun w => w.Coherent ∧ J w) settle := fun w hw =>
  ⟨settle_keeps w hw.1, hJ.settled hw.1 hw.2⟩

/-- What is read is what is stored, and no writes wait. -/
theorem fetch (id : ObjectId) : Attempts (fun w => w.Coherent ∧ J w) (fetch id)
    (fun found w => (w.Coherent ∧ J w) ∧ w.session.queue = [] ∧
      ∀ r, found = some r → r.id = id ∧ w.store.read r.id = .ok (some r))
    fun w => w.Coherent ∧ J w := by
  refine .bind (Q := fun _ w => (w.Coherent ∧ J w) ∧ w.session.queue = [])
    (.lift fun w hw => ⟨hJ.settle w hw, rfl⟩) fun _ => ?_
  rintro w ⟨hw, hqueue⟩
  have hsame := Store.fetch_same id w.store
  have hafter : World.Coherent { w with store := (Store.fetch id w.store).2 } ∧
      J { w with store := (Store.fetch id w.store).2 } :=
    ⟨⟨hw.1.session, (Store.Edit.fetch w.store id).faithful hw.1.store⟩, hJ.same hw.2 hsame⟩
  rw [access_run]
  cases hfound : (Store.fetch id w.store).1 with
  | error e => exact hafter
  | ok found =>
    refine ⟨hafter, hqueue, ?_⟩
    rintro r rfl
    have hid := Store.fetch_id hw.1.store hfound
    refine ⟨hid, ?_⟩
    have hconnected : w.store.isConnected = true := by
      by_contra hc
      rw [Store.fetch_offline (Bool.not_eq_true _ ▸ hc)] at hfound
      cases hfound
    rw [Store.fetch_read hconnected] at hfound
    rw [hid]
    exact (congrFun hsame.read id).trans hfound

/-- A record that is stored becomes resident, or another copy is. -/
theorem adopt (record : Record) : Holds
    (fun w => (w.Coherent ∧ J w) ∧ w.session.queue = [] ∧ w.store.read record.id = .ok (some record))
    (adopt record) fun h w => ((w.Coherent ∧ J w) ∧ w.At record.id h) := by
  rintro w ⟨hw, hqueue, hread⟩
  have hheld := adopt_holds record w hw.1
  refine ⟨⟨hheld.1, ?_⟩, hheld.2⟩
  cases hres : w.session.resident.get? record.id with
  | some h =>
    rw [adopt_resident hres]
    exact hw.2
  | none =>
    rw [adopt_absent hres]
    exact hJ.adopted hw.1 hw.2 hqueue hread hres

theorem loadWith (recycledToo : Bool) (id : ObjectId) :
    Attempts (fun w => w.Coherent ∧ J w) (loadWith recycledToo id)
      (fun found w => (w.Coherent ∧ J w) ∧ ∀ h, found = some h → w.At id h)
      fun w => w.Coherent ∧ J w := by
  have hpick (h : Handle) : Attempts (fun w => (w.Coherent ∧ J w) ∧ w.At id h) (pick recycledToo h)
      (fun found w => (w.Coherent ∧ J w) ∧ ∀ h, found = some h → w.At id h)
      fun w => w.Coherent ∧ J w := by
    refine .bind (.lift (recordOf_keeps h)) fun record => ?_
    split
    · exact .pure _ fun w hw => ⟨hw.1, fun _ h => nomatch h⟩
    · refine .pure _ fun w hw => ⟨hw.1, fun g hg => ?_⟩
      cases hg
      exact hw.2
  refine .bind (.lift (cached_holds id)) fun found => ?_
  cases found with
  | some h => exact (hpick h).weaken fun _ hw => ⟨hw.2, hw.1⟩
  | none =>
    refine .bind ((hJ.fetch id).weaken fun _ hw => hw.2) fun found => ?_
    cases found with
    | none => exact .pure _ fun _ hw => ⟨hw.1, fun _ h => nomatch h⟩
    | some record =>
      by_cases hskip : (record.recycled && !recycledToo) = true
      · simp only [hskip, if_true]
        exact .pure _ fun _ hw => ⟨hw.1, fun _ h => nomatch h⟩
      · simp only [hskip]
        refine .bind (.lift fun w hw => ?_) hpick
        obtain ⟨hid, hread⟩ := hw.2.2 record rfl
        exact hid ▸ hJ.adopt record w ⟨hw.1, hw.2.1, hread⟩

theorem loads (recycledToo : Bool) (id : ObjectId) :
    Guards (fun w => w.Coherent ∧ J w) (World.loadWith recycledToo id) :=
  (hJ.loadWith recycledToo id).mono fun _ _ hw => hw.1

theorem object (id : ObjectId) : Attempts (fun w => w.Coherent ∧ J w) (object id)
    (fun h w => (w.Coherent ∧ J w) ∧ w.At id h) fun w => w.Coherent ∧ J w := by
  refine .bind (hJ.loadWith false id) fun found => ?_
  cases found with
  | some h => exact .pure _ fun _ hw => ⟨hw.1, hw.2 h rfl⟩
  | none => exact .throw _ fun _ hw => hw.1

/-- An object that a script names is resident. -/
theorem objectOf (v : Value) : Attempts (fun w => w.Coherent ∧ J w) (ScriptAction.objectOf v)
    (fun h w => (w.Coherent ∧ J w) ∧ ∃ id, w.At id h) fun w => w.Coherent ∧ J w := by
  have hid : Guards (fun w => w.Coherent ∧ J w) (ScriptAction.idOf v) := by
    unfold ScriptAction.idOf
    split
    · exact .pure _ fun _ hw => hw
    · exact .throw _ fun _ hw => hw
  refine .bind hid fun id => .bind (hJ.loadWith false id).forScript fun found => ?_
  cases found with
  | some h => exact .pure _ fun _ hw => ⟨hw.1, id, hw.2 h rfl⟩
  | none => exact .throw _ fun _ hw => hw.1

/-- Induction on the records; those still to come stay stored. -/
theorem adoptAll (recycledToo : Bool) (records : List Record) : Holds
    (fun w => (w.Coherent ∧ J w) ∧ w.session.queue = [] ∧
      ∀ r ∈ records, w.store.read r.id = .ok (some r))
    (adoptAll recycledToo records) fun _ w => w.Coherent ∧ J w := by
  induction records with
  | nil => exact .pure _ fun _ hw => hw.1
  | cons record rest ih =>
    refine .bind (Q := fun _ w => (w.Coherent ∧ J w) ∧ w.session.queue = [] ∧
      ∀ r ∈ rest, w.store.read r.id = .ok (some r)) ?_ fun h => .bind (recordOf_keeps h) fun _ =>
      .bind ih fun _ => .pure _ fun _ hw => hw
    rintro w ⟨hw, hqueue, hread⟩
    have hadopted := hJ.adopt record w ⟨hw, hqueue, hread record List.mem_cons_self⟩
    obtain ⟨hstore, hqueue'⟩ := adopt_frame record w
    refine ⟨hadopted.1, hqueue'.trans hqueue, fun r hr => ?_⟩
    rw [hstore]
    exact hread r (List.mem_cons_of_mem _ hr)
where
  /-- What is adopted leaves the store and the waiting writes alone. -/
  adopt_frame (record : Record) (w : World) : (World.adopt record w).2.store = w.store ∧
      (World.adopt record w).2.session.queue = w.session.queue := by
    cases hres : w.session.resident.get? record.id with
    | some h => rw [adopt_resident hres]; exact ⟨rfl, rfl⟩
    | none => rw [adopt_absent hres]; exact ⟨rfl, rfl⟩

/-- Listing reads the store in order. -/
theorem list (hordered : ∀ w, J w → w.store.Ordered) (recycledToo : Bool) :
    Guards (fun w => w.Coherent ∧ J w) (list recycledToo) := by
  refine .bind (Q := fun _ w => (w.Coherent ∧ J w) ∧ w.session.queue = [])
    (.lift fun w hw => ⟨hJ.settle w hw, rfl⟩) fun _ =>
    .bind (Q := fun records w => (w.Coherent ∧ J w) ∧ w.session.queue = [] ∧
      ∀ r ∈ records, w.store.read r.id = .ok (some r)) ?_ fun records =>
    .lift (hJ.adoptAll recycledToo records)
  rintro w ⟨hw, hqueue⟩
  have hsame := Store.list_same recycledToo w.store
  have hafter : World.Coherent { w with store := (Store.list recycledToo w.store).2 } ∧
      J { w with store := (Store.list recycledToo w.store).2 } :=
    ⟨⟨hw.1.session, (Store.Edit.list w.store recycledToo).faithful hw.1.store⟩, hJ.same hw.2 hsame⟩
  rw [access_run]
  cases hlist : (Store.list recycledToo w.store).1 with
  | error e => exact hafter
  | ok records =>
    have hconnected : w.store.isConnected = true := by
      by_contra hc
      rw [Store.list_offline (Bool.not_eq_true _ ▸ hc)] at hlist
      cases hlist
    exact ⟨hafter, hqueue, fun r hr => (congrFun hsame.read r.id).trans
      (Store.read_of_list hw.1.store (hordered w hw.2) hconnected hlist hr)⟩

/-- Induction on the steps. -/
theorem climb {α : Type} (probe : Record → Option α) (fuel : Nat) (visited : List ObjectId)
    (h : Handle) : Guards (fun w => w.Coherent ∧ J w) (climb probe fuel visited h) := by
  induction fuel generalizing visited h with
  | zero => exact .pure _ fun _ hw => hw
  | succ fuel ih =>
    refine .bind (.lift (recordOf_keeps h)) fun record => ?_
    split
    · exact .pure _ fun _ hw => hw
    · split
      · exact .pure _ fun _ hw => hw
      · split
        · exact .pure _ fun _ hw => hw
        · refine .bind (hJ.loads true record.parent) fun found => ?_
          cases found with
          | some ancestor => exact ih _ ancestor
          | none => exact .pure _ fun _ hw => hw

theorem resolve {α : Type} (h : Handle) (probe : Record → Option α) :
    Guards (fun w => w.Coherent ∧ J w) (resolve h probe) :=
  .bind .get fun _ => .weaken (hJ.climb probe _ [] h) fun _ hw => hw.2

/-- Whether a parent is allowed is found out by reading. -/
theorem allowParent (id parent : ObjectId) :
    Guards (fun w => w.Coherent ∧ J w) (allowParent id parent) := by
  unfold World.allowParent
  by_cases hself : parent = id
  · rw [if_pos hself]
    exact .thrown _ fun _ hw => hw
  · rw [if_neg hself]
    by_cases hnothing : parent ≠ .nothing
    · rw [if_pos hnothing]
      refine .bind (hJ.loads true parent) fun found => ?_
      cases found with
      | none => exact .pure _ fun _ hw => hw
      | some ancestor =>
        refine .bind (Q := fun _ w => w.Coherent ∧ J w)
          (.bind (hJ.resolve ancestor _) fun _ => .pure _ fun _ hw => hw) fun cyclic => ?_
        cases cyclic with
        | true => exact .throw _ fun _ hw => hw
        | false => exact .pure _ fun _ hw => hw
    · rw [if_neg hnothing]
      exact .pure _ fun _ hw => hw

end Steady

/-! ## What operations are made of -/

end World

/-- A change to a copy that leaves alone what object it is of and whose child that is. -/
structure Copy.KeepsHeader (f : Copy → Copy) : Prop where
  id : ∀ c, (f c).record.id = c.record.id
  parent : ∀ c, (f c).record.parent = c.record.parent
  recycled : ∀ c, (f c).record.recycled = c.record.recycled
  dirty : ∀ c, (f c).dirty.header = c.dirty.header

namespace World

/-- What stays true whatever is done: with `k` objects that can still be created, as long as objects
get parents that are `allowed`, through handles by which they `may` get them. -/
structure Upheld (J : Nat → World → Prop) (allowed : ObjectId → World → Prop)
    (may : Handle → World → Prop) : Prop where
  steady : ∀ k, Steady (J k)
  ordered : ∀ {k w}, J k w → w.store.Ordered
  less : ∀ {k w}, J (k + 1) w → J k w
  compiled : ∀ {k} {w : World}, J k w → ∀ compiled compilations,
    J k { w with session := { w.session with compiled, compilations } }
  seeded : ∀ {k} {w : World}, J k w → ∀ seed, J k { w with seed }
  changed : ∀ {k} {w : World}, J k w → ∀ h {f}, Copy.KeepsHeader f →
    J k { w with session := w.session.change h f }
  written : ∀ {k w}, w.Coherent → J k w → J k w.writeNext
  save : ∀ {k w}, w.Coherent → J k w → ∀ h, J k ((save h).run w).2
  saveLater : ∀ {k w}, w.Coherent → J k w → ∀ h, J k (saveLater h w).2
  refresh : ∀ {k w}, w.Coherent → J k w → ∀ h, w.session.Given h → J k ((refresh h).run w).2
  invalidate : ∀ {k w}, w.Coherent → J k w → ∀ id, J k (invalidate id w).2
  create : ∀ {k w}, w.Coherent → J (k + 1) w → ∀ parent properties methods, allowed parent w →
    J k ((create parent properties methods).run w).2
  recycle : ∀ {k w}, w.Coherent → J k w → ∀ id, J k ((recycle id).run w).2
  setParent : ∀ {k w}, w.Coherent → J k w → ∀ h parent, allowed parent w → may h w →
    J k ((setParent h parent).run w).2
  shutdown : ∀ {k w}, w.Coherent → J k w → J k (shutdown.run w).2
  waited : ∀ {k} {w : World}, J k w → ∀ clock, clock.Valid → J k { w with clock }
  reopened : ∀ {k w}, w.Coherent → J k w → ∀ runtime, J k ((openSession runtime).run w).2
  /-- What is allowed stays so when objects are brought into memory. -/
  still : ∀ id, Steady (allowed id)
  nothing : ∀ w, allowed .nothing w
  resident : ∀ {k w}, w.Coherent → J k w → ∀ {id h}, w.At id h → allowed id w ∧ may h w

namespace Upheld

variable {J : Nat → World → Prop} {allowed : ObjectId → World → Prop} {may : Handle → World → Prop}
  (hJ : Upheld J allowed may) {k : Nat}
include hJ

theorem onCopy (h : Handle) {f : Copy → Copy} (hf : Copy.KeepsHeader f) :
    Keeps (J k) (onCopy h f) := fun _ hw => hJ.changed hw h hf

theorem setProperty (h : Handle) (name : String) (v : Value) : Keeps (J k) (setProperty h name v) :=
  .bind (hJ.onCopy h ⟨fun _ => rfl, fun _ => rfl, fun _ => rfl, fun _ => rfl⟩) fun _ =>
    hJ.onCopy h ⟨fun _ => rfl, fun _ => rfl, fun _ => rfl, fun _ => rfl⟩

theorem removeProperty (h : Handle) (name : String) : Keeps (J k) (removeProperty h name) := by
  refine .bind (recordOf_keeps h) fun record => ?_
  split
  · exact .bind (hJ.onCopy h ⟨fun _ => rfl, fun _ => rfl, fun _ => rfl, fun _ => rfl⟩) fun _ =>
      .bind (hJ.onCopy h ⟨fun _ => rfl, fun _ => rfl, fun _ => rfl, fun _ => rfl⟩) fun _ =>
      .pure _ fun _ hw => hw
  · exact .pure _ fun _ hw => hw

theorem forgetCompiled (definer : ObjectId) (name : String) :
    Keeps (J k) (forgetCompiled definer name) := by
  intro w hw
  show J k { w with session := w.session.forgetting definer name }
  unfold Session.forgetting
  cases w.session.compiled.get? definer with
  | none => exact hw
  | some programs => exact hJ.compiled hw _ _

theorem setMethod (h : Handle) (name : String) (m : MethodDef) : Keeps (J k) (setMethod h name m) :=
  .bind (hJ.onCopy h ⟨fun _ => rfl, fun _ => rfl, fun _ => rfl, fun _ => rfl⟩) fun _ =>
    .bind (hJ.onCopy h ⟨fun _ => rfl, fun _ => rfl, fun _ => rfl, fun _ => rfl⟩) fun _ =>
    .bind (recordOf_keeps h) fun _ => hJ.forgetCompiled _ name

theorem removeMethod (h : Handle) (name : String) : Keeps (J k) (removeMethod h name) := by
  refine .bind (recordOf_keeps h) fun record => ?_
  split
  · exact .bind (hJ.onCopy h ⟨fun _ => rfl, fun _ => rfl, fun _ => rfl, fun _ => rfl⟩) fun _ =>
      .bind (hJ.onCopy h ⟨fun _ => rfl, fun _ => rfl, fun _ => rfl, fun _ => rfl⟩) fun _ =>
      .bind (hJ.forgetCompiled _ name) fun _ => .pure _ fun _ hw => hw
  · exact .pure _ fun _ hw => hw

omit hJ in
/-- What is coherent as well stays so. -/
theorem both {α ε : Type} {x : ExceptT ε (StateM World) α} {j : Nat} {P : World → Prop}
    (hc : Guards World.Coherent x) (hx : ∀ w, w.Coherent → J j w → P w → J k (x.run w).2) :
    Attempts (fun w => (w.Coherent ∧ J j w) ∧ P w) x (fun _ w => w.Coherent ∧ J k w)
      fun w => w.Coherent ∧ J k w :=
  (hc.and (.of_world (P := fun w => (w.Coherent ∧ J j w) ∧ P w) fun w hw =>
    hx w hw.1.1 hw.1.2 hw.2)).weaken fun _ hw => ⟨hw.1.1, hw⟩

omit hJ in
theorem guards {α ε : Type} {x : ExceptT ε (StateM World) α} (hc : Guards World.Coherent x)
    (hx : ∀ w, w.Coherent → J k w → J k (x.run w).2) : Guards (fun w => w.Coherent ∧ J k w) x :=
  (both (P := fun _ => True) hc fun w hc hw _ => hx w hc hw).weaken fun _ hw => ⟨hw, trivial⟩

omit hJ in
theorem bothKeep {α : Type} {x : StateM World α} (hc : Keeps World.Coherent x)
    (hx : ∀ w, w.Coherent → J k w → J k (x w).2) :
    Keeps (fun w => w.Coherent ∧ J k w) x := fun w hw => ⟨hc w hw.1, hx w hw.1 hw.2⟩

theorem compiledMethod (definer : ObjectId) (name : String) :
    Guards (fun w => w.Coherent ∧ J k w) (compiledMethod definer name) := by
  -- While it is looked for both are known; that it stays coherent is known of the whole.
  have hfound : Attempts (fun w => w.Coherent ∧ J k w) (World.compiledMethod definer name)
      (fun _ => J k) (J k) := by
    refine .bind .get fun seen => ?_
    cases keptProgram seen.session definer name with
    | some p => exact .pure _ fun _ hw => hw.2.2
    | none =>
      refine .bind ((((hJ.steady k).loads true definer).weaken fun _ hw => hw.2).fails
        fun _ hw => hw.2) fun found => ?_
      cases found with
      | none => exact .throw _ fun _ hw => hw.2
      | some h =>
        refine .bind (.lift (recordOf_keeps h)) fun record => ?_
        cases record.methods.get? name with
        | none => exact .throw _ fun _ hw => hw.2
        | some m =>
          refine .bind .get fun now => ?_
          cases Program.compile m.source now.session.runtime.customErrors with
          | error e => exact .throw _ fun _ hw => hw.2.2
          | ok p =>
            exact .bind (.lift (Q := fun _ => J k) fun _ hw => hJ.compiled hw.2.2 _ _) fun _ =>
              .pure _ fun _ hw => hw
  exact ((compiledMethod_guards definer name).and hfound).weaken fun _ hw => ⟨hw.1, hw⟩

theorem creates (parent : ObjectId) (properties : OrderedDict String Value)
    (methods : OrderedDict String MethodDef) :
    Attempts (fun w => (w.Coherent ∧ J (k + 1) w) ∧ allowed parent w)
      (World.create parent properties methods) (fun _ w => w.Coherent ∧ J k w)
      fun w => w.Coherent ∧ J k w :=
  (both (P := allowed parent) (create_guards parent properties methods) fun _ hc hw hparent =>
    hJ.create hc hw parent properties methods hparent)

theorem reparents (h : Handle) (parent : ObjectId) :
    Attempts (fun w => (w.Coherent ∧ J k w) ∧ allowed parent w ∧ may h w) (World.setParent h parent)
      (fun _ w => w.Coherent ∧ J k w) fun w => w.Coherent ∧ J k w :=
  both (P := fun w => allowed parent w ∧ may h w) (setParent_guards h parent) fun _ hc hw hp =>
    hJ.setParent hc hw h parent hp.1 hp.2

/-! ## Scripts -/

omit hJ in
/-- What an operation keeps of one world it keeps of two that are the same. -/
theorem agree {α ε : Type} {I : World → Prop} {x : ExceptT ε (StateM World) α} (hx : Guards I x) :
    Agree (fun w w' => w = w' ∧ I w) x :=
  (Matches.diagonal hx).mono fun _ _ _ _ hw => ⟨hw.1.1, hw.1.2, hw.2⟩

omit hJ in
theorem twins {α : Type} {I : World → Prop} {x : StateM World α} (hx : Keeps I x) :
    Twins (fun w w' => w = w' ∧ I w) x x (Equally fun w w' => w = w' ∧ I w) :=
  (Twins.diagonal hx).mono fun _ _ _ _ hw => ⟨hw.1.1, hw.1.2, hw.2⟩

/-- A parent that is found is allowed, so what a script creates goes under one that is. -/
theorem createObject (parent : ObjectId) (properties : OrderedDict String Value) :
    Attempts (fun w => w.Coherent ∧ J (k + 1) w) (ScriptAction.createObject parent properties)
      (fun _ w => w.Coherent ∧ J k w) fun w => w.Coherent ∧ J k w := by
  have hless {w : World} (hw : w.Coherent ∧ J (k + 1) w) : w.Coherent ∧ J k w := ⟨hw.1, hJ.less hw.2⟩
  have hcreate : Attempts (fun w => (w.Coherent ∧ J (k + 1) w) ∧ allowed parent w) (do
      let h ← (World.create parent properties {}).forScript
      return .obj (← recordOf h).id : ScriptAction Value) (fun _ w => w.Coherent ∧ J k w)
      fun w => w.Coherent ∧ J k w :=
    .bind (hJ.creates parent properties {}).forScript fun h => .bind (.lift (recordOf_keeps h))
      fun _ => .pure _ fun _ hw => hw
  unfold ScriptAction.createObject
  split
  · refine .bind (((hJ.steady (k + 1)).loadWith false parent).forScript.fails fun _ => hless)
      fun found => ?_
    cases found with
    | none => exact .thrown _ fun _ hw => hless hw.1
    | some h => exact hcreate.weaken fun w hw =>
        ⟨hw.1, (hJ.resident hw.1.1 hw.1.2 (hw.2 h rfl)).1⟩
  · rename_i hnothing
    exact hcreate.weaken fun w hw => ⟨hw, Decidable.not_not.mp hnothing ▸ hJ.nothing w⟩

/-- The object is found first; the parent that is named is still allowed then. -/
theorem chparent (v : Value) {parent : Value} (rest : List Value) {id : ObjectId}
    (hid : parent.obj? = some id) : Attempts (fun w => w.Coherent ∧ J k w ∧ allowed id w)
      (ScriptAction.builtin .chparent (v :: parent :: rest)) (fun _ w => w.Coherent ∧ J k w)
      fun w => w.Coherent ∧ J k w := by
  refine .bind (((hJ.steady k).and (hJ.still id)).objectOf v |>.fails fun _ hw => ⟨hw.1, hw.2.1⟩)
    fun h => .bind (Q := fun named w => named = id ∧ (w.Coherent ∧ J k w) ∧ allowed id w ∧ may h w)
    ?_ fun named => .bind (Q := fun _ w => w.Coherent ∧ J k w) ?_ fun _ => .pure _ fun _ hw => hw
  · unfold ScriptAction.idOf
    rw [hid]
    exact .pure _ fun w ⟨⟨hc, hw, hallowed⟩, _, hat⟩ =>
      ⟨rfl, ⟨hc, hw⟩, hallowed, (hJ.resident hc hw hat).2⟩
  · exact fun w hw => hw.1 ▸ (hJ.reparents h id).forScript w hw.2

/-- What names no object is not made a parent. -/
theorem chparent_unnamed (v : Value) {parent : Value} (rest : List Value)
    (hid : parent.obj? = none) : Guards (fun w => w.Coherent ∧ J k w)
      (ScriptAction.builtin .chparent (v :: parent :: rest)) := by
  refine .bind ((hJ.steady k).objectOf v) fun h => .bind (Q := fun _ _ => False) ?_
    fun _ => fun _ hw => hw.elim
  unfold ScriptAction.idOf
  rw [hid]
  exact .throw _ fun _ hw => hw.1

/-- Scripts keep it as well: they run in lockstep with themselves. -/
theorem lockstep : Lockstep (fun k w w' => w = w' ∧ w.Coherent ∧ J k w) (fun h h' _ _ => h = h')
    allowed where
  less hw := ⟨hw.1, hw.2.1, hJ.less hw.2.2⟩
  settings hw := by
    obtain ⟨rfl, -⟩ := hw
    exact ⟨rfl, rfl⟩
  copies hw := by
    obtain ⟨⟨rfl, -⟩, rfl⟩ := hw
    rfl
  load k id := by
    refine (Matches.diagonal ((hJ.steady k).loads false id)).mono ?_
    rintro found _ w _ ⟨⟨rfl, rfl⟩, hw⟩
    cases found with
    | none => exact ⟨rfl, hw⟩
    | some h => exact ⟨⟨rfl, hw⟩, rfl⟩
  list k recycledToo := by
    refine (Matches.diagonal ((hJ.steady k).list (fun _ => hJ.ordered) recycledToo)).mono ?_
    rintro handles _ w _ ⟨⟨rfl, rfl⟩, hw⟩
    refine ⟨handles.map fun h => (h, h), ?_, ?_, ⟨rfl, hw⟩, fun p hp => ?_⟩
    · rw [List.map_map]
      exact (List.map_id handles).symm
    · rw [List.map_map]
      exact (List.map_id handles).symm
    obtain ⟨h, -, rfl⟩ := List.mem_map.mp (List.append_nil (handles.map _) ▸ hp)
    rfl
  resolve k probe h h' more := by
    rintro w _ ⟨⟨rfl, hw⟩, hsame⟩
    obtain rfl : h = h' := hsame (h, h') List.mem_cons_self
    have hagree := agree ((hJ.steady k).resolve h probe)
    exact (hagree.mono fun _ _ _ _ hw => ⟨hw.1, hw.2, hsame⟩) w w ⟨rfl, hw⟩
  compiled k definer name := agree (hJ.compiledMethod definer name)
  setProperty k h h' name v := by
    rintro w _ ⟨⟨rfl, hw⟩, rfl⟩
    exact ⟨⟨rfl, bothKeep (setProperty_keeps h name v) (fun w _ => hJ.setProperty h name v w) w hw⟩,
      rfl⟩
  setMethod k h h' name m := by
    rintro w _ ⟨⟨rfl, hw⟩, rfl⟩
    exact ⟨⟨rfl, bothKeep (setMethod_keeps h name m) (fun w _ => hJ.setMethod h name m w) w hw⟩, rfl⟩
  removeMethod k h h' name := by
    rintro w _ ⟨⟨rfl, hw⟩, rfl⟩
    exact ⟨rfl, ⟨rfl,
      bothKeep (removeMethod_keeps h name) (fun w _ => hJ.removeMethod h name w) w hw⟩, rfl⟩
  save k h h' := by
    rintro w _ ⟨hw, rfl⟩
    exact agree (guards (save_guards h) fun w hc hw => hJ.save hc hw h) _ _ hw
  saveLater k h h' := by
    rintro w _ ⟨⟨rfl, hw⟩, rfl⟩
    exact ⟨rfl, bothKeep (saveLater_keeps h) (fun w hc hw => hJ.saveLater hc hw h) w hw⟩
  createObject k parent properties :=
    (Matches.diagonal (hJ.createObject parent properties)).mono fun _ _ _ _ hw => ⟨hw.1.1, hw.1.2, hw.2⟩
  recycle k id := agree (guards (recycle_guards id) fun w hc hw => hJ.recycle hc hw id)
  draw k limit := twins (bothKeep (draw_keeps limit) fun w _ hw => hJ.seeded hw _)
  chparent k v parent rest := by
    rintro w _ ⟨⟨rfl, hw⟩, hwithin⟩
    cases hid : parent.obj? with
    | none => exact agree (hJ.chparent_unnamed v rest hid) w w ⟨rfl, hw⟩
    | some id =>
      exact ((Matches.diagonal (hJ.chparent v rest hid)).mono fun _ _ _ _ hw =>
        ⟨hw.1.1, hw.1.2, hw.2⟩) w w ⟨rfl, hw.1, hw.2, hwithin id hid⟩

/-! ## Operations -/

end Upheld

end World

namespace Operation

/-- How many objects an operation may create. -/
def cost : Operation → Nat
  | create _ _ _ | ensureRoot => 1
  | eval fuel _ _ | call fuel _ _ _ | command fuel _ _ _ _ _ => fuel
  | _ => 0

/-- Objects get parents that are allowed, through handles by which they may get them: in a run of
a script whenever it asks for that. -/
def Permitted (allowed : ObjectId → World → Prop) (may : Handle → World → Prop) (op : Operation)
    (w : World) : Prop :=
  let keeps (fuel : Nat) (start : Action Activation) : Prop :=
    ∀ a w₁, start.run w = (.ok a, w₁) → Machine.Keeping allowed fuel ⟨a, []⟩ w₁
  match op with
  | create parent _ _ => allowed parent w
  | setParent h parent => allowed parent w ∧ may h w
  | eval fuel this source => keeps fuel (World.startEval this source)
  | call fuel h name args => keeps fuel (World.startCall h name args)
  | command fuel h word args player argstr =>
    keeps fuel (World.startCommand h word args player argstr)
  | _ => True

/-- Where every parent is allowed and every handle good, every operation is permitted. -/
theorem permitted_any (op : Operation) (w : World) :
    op.Permitted (fun _ _ => True) (fun _ _ => True) w := by
  unfold Permitted
  split
  · trivial
  · exact ⟨trivial, trivial⟩
  · exact fun _ _ _ => Machine.keeping_any _ _ _
  · exact fun _ _ _ => Machine.keeping_any _ _ _
  · exact fun _ _ _ => Machine.keeping_any _ _ _
  · trivial

end Operation

namespace World.Upheld

variable {J : Nat → World → Prop} {allowed : ObjectId → World → Prop} {may : Handle → World → Prop}
  (hJ : Upheld J allowed may) {k : Nat} {w : World}

/-- What comes of an operation on two worlds that are the same. -/
theorem ends {α ε : Type} {P : World → World → Prop} {Q : α → α → World → World → Prop}
    {x : ExceptT ε (StateM World) α}
    (hx : Matches P x x Q fun w w' => w = w' ∧ w.Coherent ∧ J k w) (hw : P w w)
    (hQ : ∀ a b w w', Q a b w w' → J k w) : J k (x.run w).2 := by
  have hrun := hx w w hw
  rcases hresult : x.run w with ⟨e | a, w₁⟩
  · rw [hresult] at hrun
    exact hrun.2.2.2
  · rw [hresult] at hrun
    exact hQ _ _ _ _ hrun

include hJ

theorem ensureRoot (hc : w.Coherent) (hw : J (k + 1) w) : J k (World.ensureRoot.run w).2 := by
  have hless {w : World} (hw : w.Coherent ∧ J (k + 1) w) : w.Coherent ∧ J k w := ⟨hw.1, hJ.less hw.2⟩
  have hroot : Attempts (fun w => w.Coherent ∧ J (k + 1) w) World.ensureRoot
      (fun _ w => w.Coherent ∧ J k w) fun w => w.Coherent ∧ J k w := by
    have hsteady := hJ.steady (k + 1)
    refine .bind ((hsteady.loads false .root).fails fun _ => hless) fun found => ?_
    cases found with
    | some h => exact .pure _ fun _ => hless
    | none =>
      have hcreate : Attempts (fun w => w.Coherent ∧ J (k + 1) w) (do
          let h ← World.create .nothing (.ofList [(aliasProperty, .map [])]) {}
          if (← recordOf h).id ≠ .root then throw (.notFound .root)
          return h : Action Handle) (fun _ w => w.Coherent ∧ J k w) fun w => w.Coherent ∧ J k w := by
        refine .bind ((hJ.creates .nothing _ {}).weaken fun w hw => ⟨hw, hJ.nothing w⟩) fun h =>
          .bind (.lift (recordOf_keeps h)) fun record => ?_
        dsimp only
        split
        · exact .thrown _ fun _ hw => hw
        · exact .pure _ fun _ hw => hw
      refine .bind (.lift hsteady.settle) fun _ => .bind (Q := fun _ w => w.Coherent ∧ J (k + 1) w) ?_
        fun all => ?_
      · rintro w ⟨hc, hw⟩
        have hafter : World.Coherent { w with store := (Store.list true w.store).2 } ∧
            J (k + 1) { w with store := (Store.list true w.store).2 } :=
          ⟨⟨hc.session, (Store.Edit.list w.store true).faithful hc.store⟩,
            hsteady.same hw (Store.list_same true w.store)⟩
        rw [access_run]
        cases (Store.list true w.store).1 with
        | error e => exact hless hafter
        | ok all => exact hafter
      · dsimp only
        split
        · exact .thrown _ fun _ => hless
        · exact hcreate
  have hrun := hroot w ⟨hc, hw⟩
  rcases hresult : World.ensureRoot.run w with ⟨e | h, w₁⟩
  · rw [hresult] at hrun
    exact hrun.2
  · rw [hresult] at hrun
    exact hrun.2

/-- Every operation that is permitted keeps it. -/
theorem operate (hc : w.Coherent) (op : Operation) (hw : J (k + op.cost) w)
    (hgiven : ∀ h, op.handle? = some h → w.session.Given h) (hpermitted : op.Permitted allowed may w) :
    J k (op.after w) := by
  have hsteady := hJ.steady k
  have hL := hJ.lockstep
  -- What keeps both, and what two worlds that are the same come to.
  have hguards {α : Type} {x : Action α} (hw : J k w) (hx : Guards (fun w => w.Coherent ∧ J k w) x) :
      J k (x.run w).2 := (hx.world ⟨hc, hw⟩).2
  have hagrees {α : Type} {x : Action α} (hw : J k w)
      (hx : Agree (fun w w' => w = w' ∧ w.Coherent ∧ J k w) x) : J k (x.run w).2 :=
    ends hx ⟨rfl, hc, hw⟩ fun _ _ _ _ hw => hw.2.2.2
  have hfinishes {fuel : Nat} {start : Action Activation} (hw : J (k + fuel) w)
      (hx : Agree (fun w w' => w = w' ∧ w.Coherent ∧ J (k + fuel) w) start)
      (hkeeping : ∀ a w₁, start.run w = (.ok a, w₁) → Machine.Keeping allowed fuel ⟨a, []⟩ w₁) :
      J k ((start >>= fun a => a.finish fuel : Action _).run w).2 :=
    ends (hL.finishes fuel hx) ⟨⟨rfl, hc, hw⟩, hkeeping⟩ fun _ _ _ _ hw => hw.2.2.2
  cases op with
  | load recycledToo id => exact hguards hw (hsteady.loads recycledToo id)
  | object id => exact hguards hw ((hsteady.object id).mono fun _ _ hw => hw.1)
  | create parent properties methods => exact hJ.create hc hw parent properties methods hpermitted
  | list recycledToo => exact hguards hw (hsteady.list (fun _ => hJ.ordered) recycledToo)
  | invalidate id => exact hJ.invalidate hc hw id
  | recycle id => exact hJ.recycle hc hw id
  | findByProperty name wanted =>
    exact ends (hL.findByProperty name wanted) ⟨rfl, hc, hw⟩ fun _ _ _ _ ⟨_, _, _, hw, _⟩ => hw.2.2
  | ensureRoot => exact hJ.ensureRoot hc hw
  | aliased name => exact hagrees hw (hL.alias? name)
  | setAlias name target => exact hagrees hw (hL.setAlias name target)
  | compiledMethod definer name => exact hguards hw (hJ.compiledMethod definer name)
  | eval fuel this source =>
    show J k ((World.eval fuel this source).run w).2
    rw [eval_eq]
    exact hfinishes hw (hL.startEval this source) hpermitted
  | flush => exact hsteady.settled hc hw
  | shutdown => exact hJ.shutdown hc hw
  | property h name => exact hguards hw (hsteady.resolve h _)
  | setProperty h name v => exact hJ.setProperty h name v w hw
  | removeProperty h name => exact hJ.removeProperty h name w hw
  | findMethod h name => exact hguards hw (hsteady.resolve h _)
  | findCommand h word => exact hguards hw (hsteady.resolve h _)
  | setMethod h name m => exact hJ.setMethod h name m w hw
  | removeMethod h name => exact hJ.removeMethod h name w hw
  | viewGet h key =>
    have hmethod : Agree (fun w w' => w = w' ∧ w.Coherent ∧ J k w) (hasMethod h key) :=
      ((hL.resolved _ h h).returns Option.isSome).weaken fun _ _ hw => ⟨hw, rfl⟩
    have hview : Agree (fun w w' => w = w' ∧ w.Coherent ∧ J k w) (World.viewGet h key) := by
      refine ((hL.viewValue h h key).weaken fun _ _ hw => ⟨hw, rfl⟩).bindEq fun found => ?_
      cases found with
      | some v => exact .pure fun _ _ hw => ⟨rfl, hw⟩
      | none => exact hmethod.bindEq fun _ => .pure fun _ _ hw => ⟨rfl, hw⟩
    exact hagrees hw hview
  | viewSet h key v =>
    exact ends (hL.viewSet h h key v) ⟨⟨rfl, hc, hw⟩, rfl⟩ fun _ _ _ _ hw => hw.2.2.2
  | setParent h parent => exact hJ.setParent hc hw h parent hpermitted.1 hpermitted.2
  | save h => exact hJ.save hc hw h
  | saveLater h => exact hJ.saveLater hc hw h
  | refresh h => exact hJ.refresh hc hw h (hgiven h rfl)
  | call fuel h name args =>
    show J k ((World.call fuel h name args).run w).2
    rw [call_eq]
    exact hfinishes hw ((hL.startCall name args).weaken fun _ _ hw => ⟨hw, rfl⟩) hpermitted
  | command fuel h word args player argstr =>
    show J k ((World.command fuel h word args player argstr).run w).2
    rw [command_eq]
    exact hfinishes hw ((hL.startCommand word args player argstr).weaken fun _ _ hw => ⟨hw, rfl⟩)
      hpermitted

end World.Upheld

end Lineage
