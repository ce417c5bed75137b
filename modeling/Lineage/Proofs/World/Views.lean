/-
  Lineage.Proofs.World.Views

  What can be found out about a world by the ids of its objects.

  An object is seen as its resident copy, or else as what the store holds of it once the
  waiting writes have been applied (`World.seen`).  Which of the two it is, how far the
  writes have come and what is kept of compiled methods cannot be told by its id: none of
  that is part of a view.  Bringing objects into memory changes no view
  (`World.Loaded`).
-/
import Lineage.Proofs.Store.Frame
import Lineage.Proofs.World.Coherence
import Lineage.Proofs.World.Saving

namespace Lineage

/-- What operations that are given ids can find out. -/
structure View where
  /-- The copy that an object is loaded as. -/
  seen : ObjectId → Except StoreError (Option Copy)
  store : Store
  runtime : RuntimeSettings
  writing : Bool
  clock : Timestamp
  seed : Nat

namespace View

/-- An object is seen as another copy. -/
def put (v : View) (id : ObjectId) (c : Copy) : View :=
  { v with seen := fun other => if other = id then .ok (some c) else v.seen other }

theorem put_put (v : View) (id : ObjectId) (c c' : Copy) : (v.put id c).put id c' = v.put id c' := by
  simp only [put, View.mk.injEq, and_true]
  funext other
  split <;> rfl

theorem put_self {v : View} {id : ObjectId} {c : Copy} (hc : v.seen id = .ok (some c)) :
    v.put id c = v := by
  have hseen : (v.put id c).seen = v.seen := by
    funext other
    show (if other = id then _ else _) = _
    split
    · rename_i hother
      rw [hother, hc]
    · rfl
  exact congrArg (fun seen => { v with seen }) hseen

end View

/-- What is made of what the store holds. -/
def Store.fresh (s : Store) (id : ObjectId) : Except StoreError (Option Copy) :=
  (s.read id).map (Option.map fun record => { record })

namespace World

/-- The copy that an object is loaded as. -/
def seen (w : World) (id : ObjectId) : Except StoreError (Option Copy) :=
  match w.session.resident.get? id with
  | some h => .ok (some (w.session.copyOf h))
  | none => w.drained.fresh id

def view (w : World) : View where
  seen := w.seen
  store := w.drained.uncounted
  runtime := w.session.runtime
  writing := w.session.writing
  clock := w.clock
  seed := w.seed

/-- A handle names the resident copy of an object. -/
def At (w : World) (id : ObjectId) (h : Handle) : Prop :=
  w.session.resident.get? id = some h

variable {w : World} {id : ObjectId} {h : Handle}

theorem At.seen (hat : w.At id h) : w.seen id = .ok (some (w.session.copyOf h)) := by
  rw [World.seen, show w.session.resident.get? id = some h from hat]

theorem At.seen_ne (hat : w.At id h) : w.view.seen id ≠ .ok none := by
  rw [show w.view.seen id = w.seen id from rfl, hat.seen]
  exact nofun

theorem At.copy_eq (hat : w.At id h) {c : Copy} (hc : w.seen id = .ok (some c)) :
    w.session.copyOf h = c :=
  Option.some.inj (Except.ok.inj (hat.seen.symm.trans hc))

theorem seen_absent (habsent : w.session.resident.get? id = none) : w.seen id = w.drained.fresh id := by
  rw [World.seen, habsent]

theorem drained_same (w : World) : w.drained.uncounted.Same w.drained := w.drained.uncounted_same

theorem drained_faithful (hw : w.Coherent) : w.drained.Faithful :=
  applyJobs_faithful hw.store w.session.queue

/-- What waiting writes leave alone.  Induction on the writes. -/
theorem drained_frame (hw : w.Coherent) : w.drained.isConnected = w.store.isConnected ∧
    (w.store.Ordered → w.drained.Ordered) ∧ w.drained.next = w.store.next := by
  have hjobs (jobs : List Job) {s : Store} (hs : s.Faithful) :
      (jobs.foldl applyJob s).isConnected = s.isConnected ∧
        (s.Ordered → (jobs.foldl applyJob s).Ordered) ∧ (jobs.foldl applyJob s).next = s.next := by
    induction jobs generalizing s with
    | nil => exact ⟨rfl, fun h => h, rfl⟩
    | cons job jobs ih =>
      have hwrote := Store.update_wrote hs job.id job.update
      obtain ⟨hconnected, hordered, hnext⟩ := ih (applyJob_faithful hs job)
      exact ⟨hconnected.trans hwrote.connected, fun h => hordered (hwrote.ordered h),
        hnext.trans (Store.next_update job.id job.update s)⟩
  exact hjobs _ hw.store

/-- What is seen of an object carries its id. -/
theorem seen_id (hw : w.Coherent) {c : Copy} (hc : w.seen id = .ok (some c)) : c.record.id = id := by
  cases hres : w.session.resident.get? id with
  | some h =>
    rw [At.seen hres] at hc
    cases hc
    exact hw.session.named id h hres
  | none =>
    rw [seen_absent hres, Store.fresh] at hc
    cases hread : w.drained.read id with
    | error e => rw [hread] at hc; cases hc
    | ok found =>
      rw [hread] at hc
      cases found with
      | none => cases hc
      | some record =>
        cases hc
        exact Store.read_id (drained_faithful hw) hread

/-! ## Bringing objects into memory -/

/-- More objects may be in memory, and nothing else that can be told has changed. -/
structure Loaded (w w' : World) : Prop where
  coherent : w'.Coherent
  view : w'.view = w.view
  stays : ∀ id h, w.At id h → w'.At id h

namespace Loaded

theorem refl (hw : w.Coherent) : Loaded w w := ⟨hw, rfl, fun _ _ h => h⟩

theorem trans {w₁ w₂ : World} (h : Loaded w w₁) (h' : Loaded w₁ w₂) : Loaded w w₂ :=
  ⟨h'.coherent, h'.view.trans h.view, fun id g hat => h'.stays id g (h.stays id g hat)⟩

theorem seen {w' : World} (h : Loaded w w') : w'.seen = w.seen := congrArg View.seen h.view

theorem drained {w' : World} (h : Loaded w w') : w'.drained.Same w.drained :=
  congrArg View.store h.view

theorem copy_eq {w' : World} (h : Loaded w w') {id : ObjectId} {g : Handle} (hat : w.At id g) :
    w'.session.copyOf g = w.session.copyOf g :=
  (h.stays id g hat).copy_eq ((congrFun h.seen id).trans hat.seen)

theorem connected {w' : World} (h : Loaded w w') : w'.drained.isConnected = w.drained.isConnected :=
  h.drained.isConnected

end Loaded

/-- The world after the waiting writes have been applied and the store has been read. -/
def consulted (w : World) (s : Store) : World := { w.settled with store := s }

theorem consulted_loaded (hw : w.Coherent) {s : Store} (hs : s.Same w.drained) :
    Loaded w (w.consulted s) where
  coherent := ⟨hw.session.irrelevant _ _ _, hs.faithful.mpr (drained_faithful hw)⟩
  view := by
    have hdrained : (w.consulted s).drained = s := rfl
    have hseen : (w.consulted s).seen = w.seen := by
      funext id
      rw [World.seen, World.seen, hdrained, Store.fresh, Store.fresh, hs.read]
      rfl
    have hstore : (w.consulted s).drained.uncounted = w.drained.uncounted := hs
    rw [World.view, World.view, hseen, hstore]
    rfl
  stays := fun _ _ h => h

/-- A record becomes resident as a new copy. -/
theorem view_adopting (hw : w.session.Valid) (record : Record) :
    World.view { w with session := w.session.adopting record } = w.view.put record.id { record } := by
  have hseen : World.seen { w with session := w.session.adopting record } =
      fun other => if other = record.id then .ok (some { record }) else w.seen other := by
    funext other
    rw [World.seen, World.seen]
    show (match (w.session.resident.put record.id ⟨w.session.copies.size⟩).get? other with
      | some h => Except.ok (some ((w.session.adopting record).copyOf h))
      | none => w.drained.fresh other) = _
    rw [Dict.get?_put]
    by_cases hother : other = record.id
    · rw [if_pos hother, if_pos hother]
      dsimp only
      rw [Session.copyOf_adopting_new]
    · rw [if_neg hother, if_neg hother]
      cases hres : w.session.resident.get? other with
      | none => rfl
      | some h =>
        dsimp only
        rw [Session.copyOf_adopting (hw.given other h hres)]
  rw [World.view, hseen]
  rfl

theorem at_adopting {record : Record} (habsent : w.session.resident.get? record.id = none)
    (hat : w.At id h) : World.At { w with session := w.session.adopting record } id h := by
  have hne : id ≠ record.id := by
    rintro rfl
    rw [At, habsent] at hat
    cases hat
  exact (Dict.get?_put_ne _ _ hne).trans hat

/-- A record that is stored becomes resident. -/
theorem adopting_loaded (hw : w.Coherent) {record : Record}
    (habsent : w.session.resident.get? record.id = none)
    (hread : w.drained.read record.id = .ok (some record)) :
    Loaded w { w with session := w.session.adopting record } where
  coherent := ⟨hw.session.adopting habsent, hw.store⟩
  view := by
    rw [view_adopting hw.session, View.put_self]
    show w.seen record.id = _
    rw [seen_absent habsent, Store.fresh, hread]
    rfl
  stays := fun _ _ hat => at_adopting habsent hat

/-- A stored record is adopted as the resident copy, or another copy is resident. -/
theorem adopt_loaded (hw : w.Coherent) {record : Record}
    (hread : w.drained.read record.id = .ok (some record)) :
    ∃ h w', adopt record w = (h, w') ∧ Loaded w w' ∧ w'.At record.id h := by
  cases hres : w.session.resident.get? record.id with
  | some h => exact ⟨h, w, adopt_resident hres, .refl hw, hres⟩
  | none =>
    exact ⟨_, _, adopt_absent hres, adopting_loaded hw hres hread, Dict.get?_put_self _ _ _⟩

/-! ## Loading -/

/-- What comes of loading an object that is seen in this way. -/
inductive Gives (w : World) (recycledToo : Bool) (id : ObjectId) :
    Except StoreError (Option Copy) → Except RuntimeError (Option Handle) → Prop
  | failed (e : StoreError) : Gives w recycledToo id (.error e) (.error (.persistence e))
  | missing : Gives w recycledToo id (.ok none) (.ok none)
  | recycled {c : Copy} (h : (c.record.recycled && !recycledToo) = true) :
    Gives w recycledToo id (.ok (some c)) (.ok none)
  | found {c : Copy} (h : (c.record.recycled && !recycledToo) = false) {g : Handle} (hat : w.At id g) :
    Gives w recycledToo id (.ok (some c)) (.ok (some g))

/-- A resident copy is given unless it is recycled. -/
def pick (recycledToo : Bool) (h : Handle) : Action (Option Handle) := do
  if (← recordOf h).recycled && !recycledToo then return none else return some h

theorem loadWith_resident (recycledToo : Bool) (hat : w.At id h) :
    (loadWith recycledToo id).run w = (pick recycledToo h).run w := by
  have hcached : cached id w = (some h, w) := by
    rw [← show w.session.resident.get? id = some h from hat]
    rfl
  unfold loadWith
  rw [run_lift_bind, hcached]
  rfl

/-! ## Creating -/

/-- The record that a new object is stored with. -/
def draft (parent : ObjectId) (properties : OrderedDict String Value)
    (methods : OrderedDict String MethodDef)
    (now : Timestamp) : Record :=
  { Record.bare .nothing parent now with properties, methods }

theorem create_eq (parent : ObjectId) (properties : OrderedDict String Value)
    (methods : OrderedDict String MethodDef) (w : World) :
    (create parent properties methods).run w =
    match Store.create (draft parent properties methods w.clock) w.drained with
    | (.error e, s) => (.error (.persistence e), w.consulted s)
    | (.ok id, s) =>
      (fun p : Handle × World => (.ok p.1, p.2))
        (adopt { draft parent properties methods w.clock with id } (w.consulted s)) := by
  show ((access (Store.create (draft parent properties methods w.clock)) >>= fun id =>
    liftM (adopt { draft parent properties methods w.clock with id }) : Action Handle)).run w.settled = _
  have haccess : (access (Store.create (draft parent properties methods w.clock))).run w.settled =
      ((Store.create (draft parent properties methods w.clock) w.drained).1.mapError
        RuntimeError.persistence, w.consulted
          (Store.create (draft parent properties methods w.clock) w.drained).2) := access_run _ _
  rw [run_bind, haccess]
  rcases Store.create (draft parent properties methods w.clock) w.drained with ⟨_ | _, s⟩ <;> rfl

end World

end Lineage
