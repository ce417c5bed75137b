/-
  Lineage.Proofs.World.Failures

  What a failed operation leaves behind.

  Recycling, reparenting and naming an object first look at it, then change its copy, and
  write last.  If the look fails nothing has changed at all.  If the write fails the change
  stays in the copy and is marked as unsaved (`World.Retains`), to be written by the next
  save.  A refresh lets go of the object first, and if it fails the object stays out of
  memory (`World.Evicts`).  In no case has anything changed that is stored, or any other
  object (`World.Reachable.failures_contained`).
-/
import Lineage.Proofs.Record.Paths
import Lineage.Proofs.World.Reading
import Lineage.Proofs.World.Scans

namespace Lineage

-- Nothing here depends on what the compiler makes of a source, or on how a run goes.
attribute [local irreducible] Program.compile Machine.run

namespace World

variable {w w₁ w' : World} {g h : Handle} {id : ObjectId} {e : RuntimeError}

/-! ## What loading finds -/

theorem loads_congr (hw : w.Coherent) (hw' : w'.Coherent) (hmet : w'.met id = w.met id)
    (recycledToo : Bool) : w'.Loads recycledToo id ↔ w.Loads recycledToo id := by
  rw [loads_iff_met hw, loads_iff_met hw', hmet]

/-- Loading an object fails only if it cannot be loaded. -/
theorem object_browses (hw : w.Coherent) (id : ObjectId) : ∃ result w₁,
    (object id).run w = (result, w₁) ∧ Browsed w w₁ ∧
      ((∃ e, result = .error e ∧ ¬w.Loads false id) ∨
        ∃ g c, result = .ok g ∧ w₁.At id g ∧ w.met id = .ok (some c) ∧
          c.record.recycled = false) := by
  obtain ⟨result, w₁, hload, hbrowsed, hgives⟩ := loadWith_browses hw false id
  have hload' : (load id).run w = (result, w₁) := hload
  have hloads {result' : Except RuntimeError (Option Handle)} (hresult : result = result')
      (hnone : ∀ g, result' ≠ .ok (some g)) : ¬w.Loads false id := by
    rintro ⟨g, w₂, hrun⟩
    rw [hload, hresult] at hrun
    exact hnone g (congrArg Prod.fst hrun)
  rw [object, run_bind, hload']
  generalize hmet : w.met id = met at hgives
  cases hgives with
  | failed e => exact ⟨_, w₁, rfl, hbrowsed, .inl ⟨_, rfl, hloads rfl fun _ => nofun⟩⟩
  | missing => exact ⟨_, w₁, rfl, hbrowsed, .inl ⟨_, rfl, hloads rfl fun _ => nofun⟩⟩
  | recycled hskip => exact ⟨_, w₁, rfl, hbrowsed, .inl ⟨_, rfl, hloads rfl fun _ => nofun⟩⟩
  | @found c hkept g hat =>
    rw [Bool.not_false, Bool.and_true] at hkept
    exact ⟨_, w₁, rfl, hbrowsed, .inr ⟨g, c, rfl, hat, rfl, hkept⟩⟩

/-! ## Writes that fail -/

/-- A change of a copy is not written: it stays in the copy, with its path marked beside those that
were marked.  Every other copy, whatever another object is met as, and what is stored are as
before. -/
structure Retains (w w' : World) (g : Handle) (c : Copy) (change : Record → Record) (p : Path) :
    Prop where
  coherent : w'.Coherent
  record : (w'.session.copyOf g).record = { change c.record with modified := w.clock }
  marks : ∀ q, (w'.session.copyOf g).dirty.Marks q ↔ q = p ∨ c.dirty.Marks q
  copies : ∀ h, h ≠ g → w.session.Given h →
    w'.session.Given h ∧ w'.session.copyOf h = w.session.copyOf h
  stays : ∀ id h, w.At id h → w'.At id h
  was : ∀ id, w'.At id g → w.met id = .ok (some c)
  met : ∀ id, ¬w'.At id g → w'.met id = w.met id
  store : w'.drained.Same w.drained

/-- The copy after its changes have not been written. -/
def resting (now : Timestamp) (d : Dirty) (c : Copy) : Copy :=
  { record := { c.record with modified := now }, dirty := Dirty.merge {} d }

/-- Saving marks what it could not write, and what is stored is as if it had not been tried. -/
theorem save_failed (hdirty : (w.session.copyOf g).dirty.isClean = false)
    (hsave : (save g).run w = (.error e, w')) :
    w'.session.copies =
      (w.session.change g (resting w.clock (w.session.copyOf g).dirty)).copies ∧
      w'.session.resident = w.session.resident ∧ w'.drained = w.drained := by
  have hcopies : ((w.session.change g fun c => c.written w.clock).change g fun c =>
      { c with dirty := c.dirty.merge (w.session.copyOf g).dirty }).copies =
      (w.session.change g (resting w.clock (w.session.copyOf g).dirty)).copies :=
    congrArg Session.copies (Session.change_change w.session g _ _)
  rw [save_dirty hdirty] at hsave
  cases hwriting : w.session.writing with
  | true =>
    -- The waiting writes have been applied when the write is tried.
    rw [writeNow_run (w := w.sent g) hwriting] at hsave
    have hdrained : (w.sent g).drained = w.drained := rfl
    rw [hdrained] at hsave
    cases hupdate : (Store.update (w.session.copyOf g).record.id
        ((w.session.copyOf g).update w.clock) w.drained).1 with
    | ok _ => rw [hupdate] at hsave; cases hsave
    | error e' =>
      rw [hupdate] at hsave
      cases hsave
      exact ⟨hcopies, rfl, Store.update_failed hupdate⟩
  | false =>
    -- Nothing is written any more, so nothing is tried either.
    rw [writeNow_stopped (w := w.sent g) hwriting] at hsave
    cases hsave
    exact ⟨hcopies, rfl, rfl⟩

/-- The copy has been changed in a world in which more may be in memory, and saving it failed. -/
theorem Browsed.retains (hb : Browsed w w₁) (hgiven : w₁.session.Given g) {c : Copy}
    (hc : w₁.session.copyOf g = c) {f : Copy → Copy} (change : Record → Record) {p : Path}
    (hrecord : (f c).record = change c.record)
    (hmarks : ∀ q, (f c).dirty.Marks q ↔ q = p ∨ c.dirty.Marks q)
    (hsave : (save g).run { w₁ with session := w₁.session.change g f } = (.error e, w'))
    (hw' : w'.Coherent) :
    w'.session.resident = w₁.session.resident ∧ Retains w w' g c change p := by
  have hchanged : (w₁.session.change g f).copyOf g = f c := by
    rw [Session.copyOf_change_self hgiven, hc]
  have hdirty : ((w₁.session.change g f).copyOf g).dirty.isClean = false := by
    rw [hchanged, Bool.eq_false_iff]
    exact fun hclean => Dirty.isClean_iff.mp hclean p ((hmarks p).mpr (.inl rfl))
  obtain ⟨hcopies, hresident, hsame⟩ :=
    save_failed (w := { w₁ with session := w₁.session.change g f }) hdirty hsave
  have hresident : w'.session.resident = w₁.session.resident := hresident
  have hsame : w'.drained = w₁.drained := hsame
  have hgiven' : (w₁.session.change g f).Given g := (Session.given_change f).mpr hgiven
  have hcopyOf (h : Handle) : w'.session.copyOf h = ((w₁.session.change g f).change g
      (resting w₁.clock ((w₁.session.change g f).copyOf g).dirty)).copyOf h :=
    congrArg (fun copies : Array Copy =>
      copies.getD h.index ⟨.bare .nothing .nothing .epoch, {}⟩) hcopies
  have hcopy : w'.session.copyOf g = resting w₁.clock (f c).dirty (f c) := by
    rw [hcopyOf, Session.copyOf_change_self hgiven', hchanged]
  have hothers (h : Handle) (hne : h ≠ g) : w'.session.copyOf h = w₁.session.copyOf h := by
    rw [hcopyOf, Session.copyOf_change_ne hne, Session.copyOf_change_ne hne]
  refine ⟨hresident, hw', ?_, fun q => ?_, fun h hne hh => ⟨?_, ?_⟩, fun id h hat => ?_,
    fun id hat => ?_, fun id hnot => ?_, ?_⟩
  · rw [hcopy, resting, hrecord, show w₁.clock = w.clock from congrArg View.clock hb.view]
  -- Saving had taken the marks away, and has put them back.
  · rw [hcopy, resting, Dirty.marks_merge, hmarks]
    exact or_iff_right (Dirty.not_marks_clean q)
  · have hsize : w'.session.copies.size = w₁.session.copies.size := by
      rw [hcopies]
      simp only [Session.change, Array.size_modify]
    exact Nat.lt_of_lt_of_eq (hb.given h hh) hsize.symm
  · rw [hothers h hne, hb.copies h hh]
  · rw [At, hresident]
    exact hb.stays id h hat
  · rw [At, hresident] at hat
    rw [← hb.met, At.met hat, hc]
  · rw [At, hresident] at hnot
    rw [← hb.met, World.met, World.met, hresident, hsame]
    cases hres : w₁.session.resident.get? id with
    | none => rfl
    | some h =>
      have hne : h ≠ g := by
        rintro rfl
        exact hnot hres
      dsimp only
      rw [hothers h hne]
  · rw [hsame]
    exact hb.drained

/-- The object whose copy is resident is found as its record says. -/
theorem Retains.loads_self {c : Copy} {change : Record → Record} {p : Path}
    (hr : Retains w w' g c change p) (hat : w'.At id g) (recycledToo : Bool) :
    w'.Loads recycledToo id ↔ (recycledToo || !(change c.record).recycled) = true := by
  have hrecycled : (w'.session.copyOf g).record.recycled = (change c.record).recycled := by
    rw [hr.record]
  rw [loads_iff_met hr.coherent, hat.met, ← hrecycled]
  refine ⟨?_, fun hshown => ⟨_, rfl, hshown⟩⟩
  rintro ⟨_, ⟨⟩, hshown⟩
  exact hshown

/-- A change that does not recycle the object changes nothing of what loading finds. -/
theorem Retains.loads {c : Copy} {change : Record → Record} {p : Path}
    (hr : Retains w w' g c change p) (hw : w.Coherent)
    (hsame : (change c.record).recycled = c.record.recycled) (recycledToo : Bool)
    (id : ObjectId) : w'.Loads recycledToo id ↔ w.Loads recycledToo id := by
  by_cases hat : w'.At id g
  · rw [hr.loads_self hat, loads_iff_met hw, hr.was id hat, hsame]
    refine ⟨fun hshown => ⟨_, rfl, hshown⟩, ?_⟩
    rintro ⟨_, ⟨⟩, hshown⟩
    exact hshown
  · exact loads_congr hw hr.coherent (hr.met id hat) recycledToo

/-- A recycled object is found only by those who ask for recycled ones. -/
theorem Retains.loads_recycled {c : Copy} {p : Path}
    (hr : Retains w w' g c (fun r => { r with recycled := true }) p) (hw : w.Coherent)
    (hat : w'.At id g) (recycledToo : Bool) (other : ObjectId) : w'.Loads recycledToo other ↔
      (other = id → recycledToo = true) ∧ w.Loads recycledToo other := by
  by_cases hother : other = id
  · subst hother
    rw [hr.loads_self hat, Bool.not_true, Bool.or_false]
    refine ⟨fun hasked => ⟨fun _ => hasked, ?_⟩, fun h => h.1 rfl⟩
    rw [loads_iff_met hw]
    exact ⟨c, hr.was other hat, by rw [hasked, Bool.true_or]⟩
  · have hnot : ¬w'.At other g := fun hat' => hother
      ((hr.coherent.session.named other g hat').symm.trans (hr.coherent.session.named id g hat))
    rw [loads_congr hw hr.coherent (hr.met other hnot)]
    exact ⟨fun h => ⟨fun heq => absurd heq hother, h⟩, fun h => h.2⟩

/-! ## What each operation leaves -/

/-- Whatever comes of an operation, the world is coherent afterwards. -/
theorem coherent_after {α : Type} {P : World → Prop} {x : Action α}
    {result : Except RuntimeError α} (hx : Attempts P x (fun _ => Coherent) Coherent) (hw : P w)
    (hrun : x.run w = (result, w')) : w'.Coherent := by
  have hkept := hx.world hw
  rw [hrun] at hkept
  exact hkept

/-- A record and what is marked in it are changed one after the other. -/
theorem amend_eq (w : World) (g : Handle) (r : Record → Record) (d : Dirty → Dirty) :
    (onDirty g d (onRecord g r w).2).2 =
      { w with session := w.session.change g fun c =>
        { record := r c.record, dirty := d c.dirty } } :=
  congrArg (fun session => { w with session }) (Session.change_change w.session g _ _)

theorem allowParent_browses (hw : w.Coherent) (id parent : ObjectId) :
    Browsed w ((allowParent id parent).run w).2 := by
  have hload (recycledToo : Bool) (id : ObjectId) :
      Guards (Browsed w) (loadWith recycledToo id) := by
    intro v hv
    obtain ⟨result, v', hrun, hbrowsed, -⟩ := loadWith_browses hv.coherent recycledToo id
    rw [hrun]
    cases result <;> exact hv.trans hbrowsed
  have hresolve {α : Type} (h : Handle) (probe : Record → Option α) :
      Guards (Browsed w) (resolve h probe) := by
    intro v hv
    obtain ⟨v', hrun, hbrowsed⟩ := resolve_browses hv.coherent h probe
    rw [hrun]
    rcases ascend v.met probe (reach v) [] (v.session.copyOf h).record with _ | _ <;>
      exact hv.trans hbrowsed
  exact (allowParent_keeps hload (fun h id => .bind (hresolve h _) fun _ => .pure _ fun _ hv => hv)
    id parent).world (.refl hw)

theorem recycle_failed (hw : w.Coherent) (hrun : (recycle id).run w = (.error e, w')) :
    (¬w.Loads false id ∧ Browsed w w') ∨ ∃ g c, w'.At id g ∧
      Retains w w' g c (fun r => { r with recycled := true }) .header := by
  have hw' : w'.Coherent := coherent_after (recycle_guards id) hw hrun
  obtain ⟨result, w₁, hobject, hbrowsed, hresult⟩ := object_browses hw id
  rw [recycle, run_bind, hobject] at hrun
  obtain ⟨e', rfl, hmissing⟩ | ⟨g, c, rfl, hat, hmet, -⟩ := hresult
  · cases hrun
    exact .inl ⟨hmissing, hbrowsed⟩
  · have hcopy : w₁.session.copyOf g = c := hbrowsed.copy_met hat hmet
    dsimp only at hrun
    rw [run_lift_bind, run_lift_bind, run_bind, amend_eq] at hrun
    rcases hsave : (save g).run _ with ⟨e' | _, w₂⟩
    · rw [hsave] at hrun
      cases hrun
      obtain ⟨hresident, hretains⟩ := hbrowsed.retains
        (hbrowsed.coherent.session.given id g hat) hcopy (fun r => { r with recycled := true }) rfl
        (fun q => c.dirty.marks_addHeader q) hsave hw'
      refine .inr ⟨g, c, ?_, hretains⟩
      rw [At, hresident]
      exact hat
    · rw [hsave] at hrun
      cases hrun

theorem setParent_failed (hw : w.Coherent) (hgiven : w.session.Given h) {parent : ObjectId}
    (hrun : (setParent h parent).run w = (.error e, w')) :
    (((allowParent (w.session.copyOf h).record.id parent).run w).1 = .error e ∧ Browsed w w') ∨
      Retains w w' h (w.session.copyOf h) (fun r => { r with parent }) .header := by
  have hw' : w'.Coherent := coherent_after (setParent_guards h parent) hw hrun
  have hbrowsed := allowParent_browses hw (w.session.copyOf h).record.id parent
  rw [setParent_run] at hrun
  rcases hallowed : (allowParent (w.session.copyOf h).record.id parent).run w with ⟨e' | _, w₁⟩
  · rw [hallowed] at hrun hbrowsed
    cases hrun
    exact .inl ⟨rfl, hbrowsed⟩
  · rw [hallowed] at hrun hbrowsed
    dsimp only at hrun hbrowsed
    rw [reparent, run_lift_bind, run_lift_bind, run_bind, amend_eq] at hrun
    rcases hsave : (save h).run _ with ⟨e' | _, w₂⟩
    · rw [hsave] at hrun
      cases hrun
      exact .inr (hbrowsed.retains (hbrowsed.given h hgiven) (hbrowsed.copies h hgiven)
        (fun r => { r with parent }) rfl (fun q => (w.session.copyOf h).dirty.marks_addHeader q)
        hsave hw').2
    · rw [hsave] at hrun
      cases hrun

/-- The record of the root with a name in its table of aliases. -/
def aliasing (name : String) (target : ObjectId) (r : Record) : Record :=
  let table := ((r.properties.get? aliasProperty).bind Value.map?).getD []
  { r with properties := r.properties.put aliasProperty (.map (table.put name (.obj target))) }

theorem setAlias_failed (hw : w.Coherent) {name : String} {target : ObjectId}
    (hrun : (setAlias name target).run w = (.error e, w')) :
    (¬w.Loads false .root ∧ Browsed w w') ∨ ∃ g c, w'.At .root g ∧
      Retains w w' g c (aliasing name target) (.property aliasProperty) := by
  have hw' : w'.Coherent := coherent_after (served_coherent.setAlias name target) hw hrun
  obtain ⟨result, w₁, hobject, hbrowsed, hresult⟩ := object_browses hw .root
  rw [setAlias, run_bind, hobject] at hrun
  obtain ⟨e', rfl, hmissing⟩ | ⟨g, c, rfl, hat, hmet, -⟩ := hresult
  · cases hrun
    exact .inl ⟨hmissing, hbrowsed⟩
  · have hcopy : w₁.session.copyOf g = c := hbrowsed.copy_met hat hmet
    have hrecord : recordOf g w₁ = (c.record, w₁) := by
      rw [← hcopy]
      rfl
    dsimp only at hrun
    have hset (v : Value) := amend_eq w₁ g
      (fun r => { r with properties := r.properties.put aliasProperty v })
      fun d => { d with properties := d.properties.add aliasProperty }
    have hset' (v : Value) : (setProperty g aliasProperty v w₁).2 = _ := hset v
    rw [run_lift_bind, hrecord, run_lift_bind, run_bind, hset'] at hrun
    rcases hsave : (save g).run _ with ⟨e' | _, w₂⟩
    · rw [hsave] at hrun
      cases hrun
      obtain ⟨hresident, hretains⟩ := hbrowsed.retains
        (hbrowsed.coherent.session.given .root g hat) hcopy (aliasing name target) rfl
        (fun q => c.dirty.marks_addProperty aliasProperty q) hsave hw'
      refine .inr ⟨g, c, ?_, hretains⟩
      rw [At, hresident]
      exact hat
    · rw [hsave] at hrun
      cases hrun

/-- An object has left memory.  Every copy, whatever another object is met as, and what is stored
are as before; the object itself cannot be loaded. -/
structure Evicts (w w' : World) (id : ObjectId) : Prop where
  coherent : w'.Coherent
  copies : w'.session.copies = w.session.copies
  resident : ∀ other, w'.session.resident.get? other =
    if other = id then none else w.session.resident.get? other
  met : ∀ other, other ≠ id → w'.met other = w.met other
  store : w'.drained.Same w.drained
  gone : ∀ c, w'.met id ≠ .ok (some c)

theorem refresh_failed (hw : w.Coherent) (hgiven : w.session.Given h)
    (hrun : (refresh h).run w = (.error e, w')) : Evicts w w' (w.session.copyOf h).record.id := by
  have hw' : w'.Coherent := coherent_after (refresh_guards h) ⟨hw, hgiven⟩ hrun
  -- The object was let go of before anything was read.
  have hfailed : w' = w.reread (w.session.copyOf h).record.id ∧
      ∀ record, (Store.fetch (w.session.copyOf h).record.id w.drained).1 ≠ .ok (some record) := by
    rw [refresh_run] at hrun
    split at hrun
    · rename_i hfetch
      cases hrun
      exact ⟨rfl, fun record => by rw [hfetch]; exact nofun⟩
    · rename_i hfetch
      cases hrun
      exact ⟨rfl, fun record => by rw [hfetch]; exact nofun⟩
    · cases hrun
  obtain ⟨rfl, hnone⟩ := hfailed
  have hsame : (w.reread (w.session.copyOf h).record.id).drained.Same w.drained :=
    Store.fetch_same (w.session.copyOf h).record.id w.drained
  have hresident (other : ObjectId) :
      (w.reread (w.session.copyOf h).record.id).session.resident.get? other =
        if other = (w.session.copyOf h).record.id then none else w.session.resident.get? other :=
    Session.resident_dropping hw.session _ other
  refine ⟨hw', rfl, hresident, fun other hne => ?_, hsame, fun c hc => ?_⟩
  · rw [World.met, World.met, hresident, if_neg hne, hsame.yields]
    rfl
  · rw [World.met, hresident, if_pos rfl, hsame.yields] at hc
    dsimp only at hc
    rcases hfetch : (Store.fetch (w.session.copyOf h).record.id w.drained).1 with e' | _ | record
    · rw [Store.yields, hfetch] at hc; cases hc
    · rw [Store.yields, hfetch] at hc; cases hc
    · exact hnone record hfetch

theorem Evicts.loads (hv : Evicts w w' id) (hw : w.Coherent) (recycledToo : Bool)
    (other : ObjectId) : w'.Loads recycledToo other ↔ other ≠ id ∧ w.Loads recycledToo other := by
  by_cases hother : other = id
  · subst hother
    rw [loads_iff_met hv.coherent]
    exact iff_of_false (fun ⟨c, hc, _⟩ => hv.gone c hc) fun h => h.1 rfl
  · rw [loads_congr hw hv.coherent (hv.met other hother)]
    exact ⟨fun h => ⟨hother, h⟩, fun h => h.2⟩

/-- Nothing has changed, and loading finds what it found. -/
def Stands (w w' : World) : Prop :=
  Browsed w w' ∧ ∀ recycledToo id, w'.Loads recycledToo id ↔ w.Loads recycledToo id

theorem Browsed.stands (hb : Browsed w w') (hw : w.Coherent) : Stands w w' :=
  ⟨hb, fun recycledToo id => loads_congr hw hb.coherent (congrFun hb.met id) recycledToo⟩

/-- A failed operation leaves everything else as it was: other objects, their copies, what is
stored, and which objects loading finds.  An object that could not be loaded or must not have the
parent is as it was too.  Only when the write has failed its copy keeps the change, marked as
unsaved, so that a recycled object is no longer found; and an object that could not be refreshed
is out of memory. -/
theorem Reachable.failures_contained {w : World} (hw : Reachable w) :
    (∀ id e w', (recycle id).run w = (.error e, w') → (¬w.Loads false id ∧ Stands w w') ∨
      ∃ g c, w'.At id g ∧ Retains w w' g c (fun r => { r with recycled := true }) .header ∧
        ∀ recycledToo other, w'.Loads recycledToo other ↔
          (other = id → recycledToo = true) ∧ w.Loads recycledToo other) ∧
    (∀ h parent e w', w.session.Given h → (setParent h parent).run w = (.error e, w') →
      (((allowParent (w.session.copyOf h).record.id parent).run w).1 = .error e ∧ Stands w w') ∨
      (Retains w w' h (w.session.copyOf h) (fun r => { r with parent }) .header ∧
        ∀ recycledToo other, w'.Loads recycledToo other ↔ w.Loads recycledToo other)) ∧
    (∀ name target e w', (setAlias name target).run w = (.error e, w') →
      (¬w.Loads false .root ∧ Stands w w') ∨
      ∃ g c, w'.At .root g ∧ Retains w w' g c (aliasing name target) (.property aliasProperty) ∧
        ∀ recycledToo other, w'.Loads recycledToo other ↔ w.Loads recycledToo other) ∧
    (∀ h e w', w.session.Given h → (refresh h).run w = (.error e, w') →
      Evicts w w' (w.session.copyOf h).record.id ∧ ∀ recycledToo other,
        w'.Loads recycledToo other ↔
          other ≠ (w.session.copyOf h).record.id ∧ w.Loads recycledToo other) := by
  have hc := hw.coherent
  refine ⟨fun id e w' hrun => ?_, fun h parent e w' hgiven hrun => ?_,
    fun name target e w' hrun => ?_, fun h e w' hgiven hrun => ?_⟩
  · obtain ⟨hmissing, hb⟩ | ⟨g, c, hat, hr⟩ := recycle_failed hc hrun
    · exact .inl ⟨hmissing, hb.stands hc⟩
    · exact .inr ⟨g, c, hat, hr, hr.loads_recycled hc hat⟩
  · obtain ⟨hrefused, hb⟩ | hr := setParent_failed hc hgiven hrun
    · exact .inl ⟨hrefused, hb.stands hc⟩
    · exact .inr ⟨hr, hr.loads hc rfl⟩
  · obtain ⟨hmissing, hb⟩ | ⟨g, c, hat, hr⟩ := setAlias_failed hc hrun
    · exact .inl ⟨hmissing, hb.stands hc⟩
    · exact .inr ⟨g, c, hat, hr, hr.loads hc rfl⟩
  · have hv := refresh_failed hc hgiven hrun
    exact ⟨hv, hv.loads hc⟩

/-- A session that has been shut down while the root and a child of it were in memory. -/
def closed : World := Operation.shutdown.after parented

theorem closed_reachable : Reachable closed :=
  (((Reachable.start (.memory {}) {} Store.Faithful.memory_nil).operate .ensureRoot nofun).operate
    (.create .root {} {}) nofun).operate .shutdown nofun

/-- There the child can be loaded until it is tried to recycle it, and the root until it is tried to
refresh it. -/
theorem Reachable.failures_contained_closed :
    (∃ e w', (recycle ⟨1⟩).run closed = (.error e, w') ∧ closed.Loads false ⟨1⟩ ∧
      ¬w'.Loads false ⟨1⟩ ∧ ∃ g c, w'.At ⟨1⟩ g ∧
        Retains closed w' g c (fun r => { r with recycled := true }) .header) ∧
    ∃ e w', closed.session.Given ⟨0⟩ ∧ (refresh ⟨0⟩).run closed = (.error e, w') ∧
      Evicts closed w' .root := by
  obtain ⟨hrecycle, -, -, hrefresh⟩ := closed_reachable.failures_contained
  have hloads : closed.Loads false ⟨1⟩ := ⟨⟨1⟩, closed, rfl⟩
  have hgiven : closed.session.Given ⟨0⟩ := by
    show 0 < _
    decide +kernel
  refine ⟨⟨_, _, rfl, hloads, ?_⟩, _, _, hgiven, rfl, (hrefresh ⟨0⟩ _ _ hgiven rfl).1⟩
  obtain ⟨hmissing, -⟩ | ⟨g, c, hat, hretains, hfound⟩ := hrecycle ⟨1⟩ _ _ rfl
  · exact absurd hloads hmissing
  · exact ⟨fun h => Bool.false_ne_true (((hfound false ⟨1⟩).mp h).1 rfl), g, c, hat, hretains⟩

/-- So operations that fail have effects: the child is no longer found or has no parent, a path of
the root is marked as unsaved, or the root is out of memory. -/
theorem Reachable.failures_show_closed : Reachable closed ∧
    (∃ e w', (recycle ⟨1⟩).run closed = (.error e, w') ∧
      closed.Loads false ⟨1⟩ ∧ ¬w'.Loads false ⟨1⟩) ∧
    (∃ e w', (setParent ⟨1⟩ .nothing).run closed = (.error e, w') ∧
      (closed.session.copyOf ⟨1⟩).record.parent = .root ∧
      (w'.session.copyOf ⟨1⟩).record.parent = .nothing) ∧
    (∃ e w', (setAlias "child" ⟨1⟩).run closed = (.error e, w') ∧
      ¬(closed.session.copyOf ⟨0⟩).dirty.Marks (.property aliasProperty) ∧
      (w'.session.copyOf ⟨0⟩).dirty.Marks (.property aliasProperty)) ∧
    ∃ e w', (refresh ⟨0⟩).run closed = (.error e, w') ∧
      closed.Loads false .root ∧ ¬w'.Loads false .root := by
  have hgone {w : World} {id : ObjectId} {result : Except RuntimeError (Option Handle)} {w₁ : World}
      (hrun : (loadWith false id).run w = (result, w₁)) (hnone : ∀ g, result ≠ .ok (some g)) :
      ¬w.Loads false id := by
    rintro ⟨g, w₂, hfound⟩
    rw [hrun] at hfound
    exact hnone g (congrArg Prod.fst hfound)
  refine ⟨closed_reachable, ⟨_, _, rfl, ⟨⟨1⟩, closed, rfl⟩, hgone rfl fun _ => nofun⟩,
    ⟨_, _, rfl, rfl, rfl⟩, ⟨_, _, rfl, Bool.false_ne_true, rfl⟩,
    _, _, rfl, ⟨⟨0⟩, closed, rfl⟩, hgone rfl fun _ => nofun⟩

end World

end Lineage
