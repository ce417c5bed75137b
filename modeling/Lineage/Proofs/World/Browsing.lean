/-
  Lineage.Proofs.World.Browsing

  What reading comes to, and what it leaves of a world.

  An object is met as its resident copy, or else as what the store answers for it once the
  waiting writes have been applied (`World.met`).  With a connected store that is how the
  object is seen; without one, every object that is not resident is met with an error.
  Loading comes to what is met (`loadWith_browses`), and neither a copy nor what is met of
  any object changes by it (`World.Browsed`).
-/
import Lineage.Proofs.World.Views

namespace Lineage

/-! ## What a store answers -/

namespace Store

/-- What is made of what a store answers for an object. -/
def yields (s : Store) (id : ObjectId) : Except StoreError (Option Copy) :=
  (fetch id s).1.map (Option.map fun record => { record })

variable {s t : Store}

theorem yields_connected (hc : s.isConnected = true) (id : ObjectId) :
    s.yields id = s.fresh id := by
  rw [yields, fetch_read hc, fresh]

theorem yields_offline (hc : s.isConnected = false) (id : ObjectId) :
    s.yields id = .error .notConnected := by
  rw [yields, fetch_offline hc]
  rfl

theorem Same.yields (h : Same s t) : s.yields = t.yields := by
  funext id
  cases hc : t.isConnected with
  | true =>
    rw [yields_connected hc, yields_connected (h.isConnected.trans hc), fresh, fresh, h.read]
  | false => rw [yields_offline hc, yields_offline (h.isConnected.trans hc)]

/-- A store gives only what it has. -/
theorem fresh_of_yields {id : ObjectId} {found : Option Copy} (h : s.yields id = .ok found) :
    s.fresh id = .ok found := by
  cases hc : s.isConnected with
  | true => rw [← yields_connected hc, h]
  | false =>
    rw [yields_offline hc] at h
    cases h

theorem read_of_yields {id : ObjectId} {record : Record}
    (h : s.yields id = .ok (some { record })) :
    s.read id = .ok (some record) := by
  have hfresh := fresh_of_yields h
  rw [fresh] at hfresh
  rcases hread : s.read id with e | _ | found
  · rw [hread] at hfresh; cases hfresh
  · rw [hread] at hfresh; cases hfresh
  · rw [hread] at hfresh
    cases hfresh
    rfl

end Store

namespace World

variable {w : World} {id : ObjectId} {h : Handle}

/-! ## What is met -/

/-- The copy that loading an object comes to. -/
def met (w : World) (id : ObjectId) : Except StoreError (Option Copy) :=
  match w.session.resident.get? id with
  | some h => .ok (some (w.session.copyOf h))
  | none => w.drained.yields id

theorem At.met (hat : w.At id h) : w.met id = .ok (some (w.session.copyOf h)) := by
  rw [World.met, show w.session.resident.get? id = some h from hat]

theorem met_absent (habsent : w.session.resident.get? id = none) :
    w.met id = w.drained.yields id := by
  rw [met, habsent]

theorem met_connected (hc : w.drained.isConnected = true) : w.met = w.seen := by
  funext id
  cases hres : w.session.resident.get? id with
  | some h => rw [At.met hres, At.seen hres]
  | none => rw [met_absent hres, seen_absent hres, Store.yields_connected hc]

/-- What is met of an object is what is seen of it. -/
theorem seen_of_met {found : Option Copy} (hmet : w.met id = .ok found) :
    w.seen id = .ok found := by
  cases hres : w.session.resident.get? id with
  | some h => rw [At.seen hres, ← At.met hres, hmet]
  | none =>
    rw [met_absent hres] at hmet
    rw [seen_absent hres, Store.fresh_of_yields hmet]

theorem met_id (hw : w.Coherent) {c : Copy} (hmet : w.met id = .ok (some c)) : c.record.id = id :=
  seen_id hw (seen_of_met hmet)

/-! ## Reading -/

/-- More objects may be in memory.  No object is met as anything else, and no copy is another. -/
structure Browsed (w w' : World) : Prop extends Loaded w w' where
  met : w'.met = w.met
  given : ∀ h, w.session.Given h → w'.session.Given h
  copies : ∀ h, w.session.Given h → w'.session.copyOf h = w.session.copyOf h

namespace Browsed

theorem refl (hw : w.Coherent) : Browsed w w :=
  ⟨.refl hw, rfl, fun _ h => h, fun _ _ => rfl⟩

theorem trans {w₁ w₂ : World} (h : Browsed w w₁) (h' : Browsed w₁ w₂) : Browsed w w₂ where
  toLoaded := h.toLoaded.trans h'.toLoaded
  met := h'.met.trans h.met
  given := fun g hg => h'.given g (h.given g hg)
  copies := fun g hg => (h'.copies g (h.given g hg)).trans (h.copies g hg)

/-- An object that has become resident has for its copy what was met of it. -/
theorem copy_met {w' : World} (hb : Browsed w w') {g : Handle} (hat : w'.At id g) {c : Copy}
    (hmet : w.met id = .ok (some c)) : w'.session.copyOf g = c :=
  hat.copy_eq (seen_of_met ((congrFun hb.met id).trans hmet))

end Browsed

theorem consulted_browsed (hw : w.Coherent) {s : Store} (hs : s.Same w.drained) :
    Browsed w (w.consulted s) where
  toLoaded := consulted_loaded hw hs
  met := by
    have hdrained : (w.consulted s).drained = s := rfl
    funext id
    rw [World.met, World.met, hdrained, hs.yields]
    rfl
  given := fun _ hg => hg
  copies := fun _ _ => rfl

/-- A record that the store answers with becomes resident. -/
theorem adopting_browsed (hw : w.Coherent) {record : Record}
    (habsent : w.session.resident.get? record.id = none)
    (hyields : w.drained.yields record.id = .ok (some { record })) :
    Browsed w { w with session := w.session.adopting record } where
  toLoaded := adopting_loaded hw habsent (Store.read_of_yields hyields)
  met := by
    funext other
    rw [World.met, World.met]
    show (match (w.session.resident.put record.id ⟨w.session.copies.size⟩).get? other with
      | some h => Except.ok (some ((w.session.adopting record).copyOf h))
      | none => w.drained.yields other) = _
    rw [Dict.get?_put]
    by_cases hother : other = record.id
    · -- The object itself is met as the copy now, which is what the store had given.
      rw [if_pos hother, hother, habsent, hyields]
      dsimp only
      rw [Session.copyOf_adopting_new]
    · rw [if_neg hother]
      cases hres : w.session.resident.get? other with
      | none => rfl
      | some g =>
        dsimp only
        rw [Session.copyOf_adopting (hw.session.given other g hres)]
  given := by
    intro g hg
    have hsize : (w.session.adopting record).copies.size = w.session.copies.size + 1 :=
      Array.size_push ..
    exact Nat.lt_of_lt_of_eq (Nat.lt_succ_of_lt hg) hsize.symm
  copies := fun _ hg => Session.copyOf_adopting hg record

theorem adopt_browses (hw : w.Coherent) {record : Record}
    (hyields : w.met record.id = .ok (some { record })) :
    ∃ h w', adopt record w = (h, w') ∧ Browsed w w' ∧ w'.At record.id h := by
  cases hres : w.session.resident.get? record.id with
  | some h => exact ⟨h, w, adopt_resident hres, .refl hw, hres⟩
  | none =>
    rw [met_absent hres] at hyields
    exact ⟨_, _, adopt_absent hres, adopting_browsed hw hres hyields, Dict.get?_put_self _ _ _⟩

theorem fetch_browses (hw : w.Coherent) (id : ObjectId) : (fetch id).run w =
    ((Store.fetch id w.drained).1.mapError RuntimeError.persistence,
      w.consulted (Store.fetch id w.drained).2) ∧
    Browsed w (w.consulted (Store.fetch id w.drained).2) := by
  refine ⟨?_, consulted_browsed hw (Store.fetch_same id w.drained)⟩
  unfold fetch
  rw [run_lift_bind, settle_run, access_run]
  rfl

theorem pick_gives (recycledToo : Bool) (hat : w.At id h) : ∃ result,
    (pick recycledToo h).run w = (result, w) ∧ w.Gives recycledToo id (w.met id) result := by
  have hrun : (pick recycledToo h).run w = (.ok (
      if ((w.session.copyOf h).record.recycled && !recycledToo) then none else some h), w) := by
    show (if ((w.session.copyOf h).record.recycled && !recycledToo) then pure none
      else pure (some h) : Action _).run w = _
    split <;> rfl
  refine ⟨_, hrun, ?_⟩
  rw [hat.met]
  by_cases hskip : ((w.session.copyOf h).record.recycled && !recycledToo) = true
  · rw [if_pos hskip]
    exact .recycled hskip
  · rw [if_neg hskip]
    exact .found (Bool.eq_false_iff.mpr hskip) hat

/-- Loading comes to what is met of the object, and fails only if the store does. -/
theorem loadWith_browses (hw : w.Coherent) (recycledToo : Bool) (id : ObjectId) :
    ∃ result w', (loadWith recycledToo id).run w = (result, w') ∧ Browsed w w' ∧
      w'.Gives recycledToo id (w.met id) result := by
  cases hres : w.session.resident.get? id with
  | some h =>
    obtain ⟨result, hrun, hgives⟩ := pick_gives recycledToo hres
    exact ⟨result, w, (loadWith_resident recycledToo hres).trans hrun, .refl hw, hgives⟩
  | none =>
    have hcached : cached id w = (none, w) := by
      rw [← hres]
      rfl
    obtain ⟨hrun, hread⟩ := fetch_browses hw id
    have hmet : w.met id = (Store.fetch id w.drained).1.map (Option.map fun record => { record }) :=
      met_absent hres
    unfold loadWith
    rw [run_lift_bind, hcached]
    dsimp only
    rw [run_bind, hrun, hmet]
    rcases hfetch : (Store.fetch id w.drained).1 with e | _ | record
    · exact ⟨_, _, rfl, hread, .failed e⟩
    · exact ⟨_, _, rfl, hread, .missing⟩
    · -- The record becomes resident, unless it is recycled and such objects are not asked for.
      have hid : record.id = id := Store.fetch_id (drained_faithful hw) hfetch
      by_cases hskip : (record.recycled && !recycledToo) = true
      · refine ⟨.ok none, _, ?_, hread, .recycled (c := { record }) hskip⟩
        dsimp only [Except.mapError]
        rw [if_pos hskip]
        rfl
      · have hyields : (w.consulted (Store.fetch id w.drained).2).met record.id =
            .ok (some { record }) := by
          rw [hread.met, hid, hmet, hfetch]
          rfl
        obtain ⟨g, w', hadopt, hadopted, hat⟩ := adopt_browses hread.coherent hyields
        rw [hid] at hat
        obtain ⟨result, hpick, hgives⟩ := pick_gives recycledToo hat
        refine ⟨result, w', ?_, hread.trans hadopted, ?_⟩
        · dsimp only [Except.mapError]
          rw [if_neg hskip, run_lift_bind, hadopt]
          exact hpick
        · rw [hadopted.met, hread.met, hmet, hfetch] at hgives
          exact hgives

/-- With a connected store an object is loaded as it is seen. -/
theorem loadWith_run (hw : w.Coherent) (hc : w.drained.isConnected = true) (recycledToo : Bool)
    (id : ObjectId) : ∃ result w', (loadWith recycledToo id).run w = (result, w') ∧ Loaded w w' ∧
      w'.Gives recycledToo id (w.seen id) result := by
  obtain ⟨result, w', hrun, hbrowsed, hgives⟩ := loadWith_browses hw recycledToo id
  rw [met_connected hc] at hgives
  exact ⟨result, w', hrun, hbrowsed.toLoaded, hgives⟩

end World

end Lineage
