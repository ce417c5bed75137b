/-
  Lineage.Proofs.World.ViewChanges

  What an operation makes of a view.

  An operation on the resident copy of an object turns the view into another one that
  depends on the view and the object alone (`World.Turns`): the object is seen
  differently, and the store is as if the write had been carried out, be it at once or
  later.
-/
import Lineage.Proofs.World.Ascent

namespace Lineage

namespace View

/-- The write of an object that is resident. -/
def write (v : View) (id : ObjectId) (u : Update) : View :=
  { v with store := (Store.update id u v.store).2.uncounted }

/-- An object is seen as it is stored. -/
def drop (v : View) (id : ObjectId) : View :=
  { v with seen := fun other => if other = id then v.store.fresh id else v.seen other }

/-- A new object is stored and seen. -/
def add (v : View) (number : Int64) (r : Record) : View :=
  { v.put ⟨number⟩ { record := { r with id := ⟨number⟩ } } with
    store := (Store.create r v.store).2.uncounted }

/-- What comes of saving the copy of an object. -/
def saved (v : View) (id : ObjectId) (c : Copy) : Except StoreError Bool × View :=
  let marked : Copy := { c.written v.clock with dirty := Dirty.merge {} c.dirty }
  if c.dirty.isClean then (.ok false, v)
  else if v.writing then
    match (Store.update id (c.update v.clock) v.store).1 with
    | .ok _ => (.ok true, (v.put id (c.written v.clock)).write id (c.update v.clock))
    | .error e => (.error e, (v.put id marked).write id (c.update v.clock))
  else (.error .notConnected, v.put id marked)

/-- What comes of having the copy of an object saved later. -/
def savedLater (v : View) (id : ObjectId) (c : Copy) : View :=
  if c.dirty.isClean then v
  else if v.writing then (v.put id (c.written v.clock)).write id (c.update v.clock)
  else v.put id (c.written v.clock)

theorem put_write (v : View) (id other : ObjectId) (u : Update) (c : Copy) :
    (v.write id u).put other c = (v.put other c).write id u := rfl

end View

namespace World

variable {w : World} {id : ObjectId} {h : Handle}

/-- A world is viewed differently; what was resident still is. -/
structure Turns (w : World) (v : View) (w' : World) : Prop where
  coherent : w'.Coherent
  view : w'.view = v
  stays : ∀ id h, w.At id h → w'.At id h

theorem Loaded.turns {w' : World} (h : Loaded w w') : Turns w w.view w' :=
  ⟨h.coherent, h.view, h.stays⟩

theorem Turns.trans {w₁ w₂ : World} {v v' : View} (h : Turns w v w₁) (h' : Turns w₁ v' w₂) :
    Turns w v' w₂ :=
  ⟨h'.coherent, h'.view, fun id g hat => h'.stays id g (h.stays id g hat)⟩

/-- A handle that an object is asked for by names a copy of it. -/
theorem At.id_eq (hat : w.At id h) (hw : w.Coherent) : (w.session.copyOf h).record.id = id :=
  hw.session.named id h hat

/-! ## Changing copies -/

/-- The world after a change to a copy. -/
def changed (w : World) (h : Handle) (f : Copy → Copy) : World :=
  { w with session := w.session.change h f }

theorem copyOf_changed (hat : w.At id h) (hw : w.Coherent) (f : Copy → Copy) :
    (w.changed h f).session.copyOf h = f (w.session.copyOf h) :=
  Session.copyOf_change_self (hw.session.given id h hat) f

theorem view_changed (hat : w.At id h) (hw : w.Coherent) (f : Copy → Copy) :
    (w.changed h f).view = w.view.put id (f (w.session.copyOf h)) := by
  have hseen : (w.changed h f).seen =
      fun other => if other = id then .ok (some (f (w.session.copyOf h))) else w.seen other := by
    funext other
    by_cases hother : other = id
    · have hat' : (w.changed h f).At id h := hat
      rw [if_pos hother, hother, hat'.seen, copyOf_changed hat hw]
    · rw [if_neg hother]
      cases hres : w.session.resident.get? other with
      | none =>
        have habsent : (w.changed h f).session.resident.get? other = none := hres
        rw [seen_absent habsent, seen_absent hres]
        rfl
      | some g =>
        have hne : g ≠ h := by
          rintro rfl
          exact hother ((hw.session.named other g hres).symm.trans (hat.id_eq hw))
        have hthere : (w.changed h f).At other g := hres
        have hsame : (w.changed h f).session.copyOf g = w.session.copyOf g :=
          Session.copyOf_change_ne hne f
        rw [hthere.seen, hsame, At.seen hres]
  rw [World.view, hseen]
  rfl

theorem changed_turns (hat : w.At id h) (hw : w.Coherent) {f : Copy → Copy}
    (hw' : (w.changed h f).Coherent) :
    Turns w (w.view.put id (f (w.session.copyOf h))) (w.changed h f) :=
  ⟨hw', view_changed hat hw f, fun _ _ h => h⟩

/-- A change that leaves the id and the methods of a copy alone. -/
theorem amended_turns (hat : w.At id h) (hw : w.Coherent) {f : Copy → Copy}
    (hid : ∀ c, (f c).record.id = c.record.id) (hmethods : ∀ c, (f c).record.methods = c.record.methods) :
    Turns w (w.view.put id (f (w.session.copyOf h))) (w.changed h f) :=
  changed_turns hat hw (onCopy_keeps h hid hmethods w hw)

/-! ## Writing -/

/-- An object is written while a copy of it is resident. -/
theorem wrote_turns (hat : w.At id h) (hw : w.Coherent) (u : Update) :
    Turns w (w.view.write id u) (w.consulted (Store.update id u w.drained).2) where
  coherent := ⟨hw.session.irrelevant _ _ _,
    (Store.Edit.update w.drained id u).faithful (drained_faithful hw)⟩
  view := by
    have hseen : (w.consulted (Store.update id u w.drained).2).seen = w.seen := by
      funext other
      cases hres : w.session.resident.get? other with
      | some g =>
        have hthere : (w.consulted (Store.update id u w.drained).2).At other g := hres
        rw [hthere.seen, At.seen hres]
        rfl
      | none =>
        have hother : other ≠ id := by
          rintro rfl
          rw [At, hres] at hat
          cases hat
        rw [seen_absent hres, seen_absent (show (w.consulted _).session.resident.get? other = none from hres)]
        show (Store.update id u w.drained).2.fresh other = _
        rw [Store.fresh, (Store.update_wrote (drained_faithful hw) id u).others other hother]
        rfl
    have hstore : (w.consulted (Store.update id u w.drained).2).drained.uncounted =
        (Store.update id u w.view.store).2.uncounted :=
      ((w.drained_same.update id u).2).symm
    rw [World.view, hseen, hstore]
    rfl
  stays := fun _ _ h => h

theorem update_view (w : World) (id : ObjectId) (u : Update) :
    (Store.update id u w.view.store).1 = (Store.update id u w.drained).1 :=
  (w.drained_same.update id u).1

/-- The world in which a write waits behind the others. -/
def queued (w : World) (job : Job) : World :=
  { w with session := { w.session with queue := w.session.queue ++ [job] } }

theorem drained_queued (w : World) (job : Job) : (w.queued job).drained = applyJob w.drained job := by
  show (w.session.queue ++ [job]).foldl applyJob w.store = _
  rw [List.foldl_append]
  rfl

theorem view_settled (w : World) : w.settled.view = w.view := rfl

/-- A write that waits cannot be told from one that has been carried out. -/
theorem queued_turns (hat : w.At id h) (hw : w.Coherent) (u : Update) :
    Turns w (w.view.write id u) (w.queued ⟨id, u⟩) where
  coherent := ⟨hw.session.irrelevant _ _ _, hw.store⟩
  view := by
    have hsettled : (w.queued ⟨id, u⟩).settled = w.consulted (Store.update id u w.drained).2 := by
      rw [settled, drained_queued]
      rfl
    rw [← view_settled, hsettled]
    exact (wrote_turns hat hw u).view
  stays := fun _ _ h => h

/-! ## Saving -/

theorem sent_turns (hat : w.At id h) (hw : w.Coherent) :
    Turns w (w.view.put id ((w.session.copyOf h).written w.clock)) (w.sent h) :=
  amended_turns hat hw (f := fun c => c.written w.clock) (fun _ => rfl) fun _ => rfl

theorem unsaved_turns (hat : w.At id h) (hw : w.Coherent) (d : Dirty) :
    Turns w (w.view.put id { w.session.copyOf h with dirty := (w.session.copyOf h).dirty.merge d })
      (w.unsaved h d) :=
  amended_turns hat hw (f := fun c => { c with dirty := c.dirty.merge d }) (fun _ => rfl) fun _ => rfl

/-- What comes of saving depends on what is seen of the object. -/
theorem save_run (hat : w.At id h) (hw : w.Coherent) : ∃ w',
    (save h).run w = ((w.view.saved id (w.session.copyOf h)).1.mapError RuntimeError.persistence, w') ∧
      Turns w (w.view.saved id (w.session.copyOf h)).2 w' := by
  by_cases hclean : (w.session.copyOf h).dirty.isClean = true
  · rw [View.saved, if_pos hclean]
    exact ⟨w, save_clean hclean, (Loaded.refl hw).turns⟩
  · have hsent := sent_turns hat hw
    have hat' : (w.sent h).At id h := hsent.stays id h hat
    have hcopy : (w.sent h).session.copyOf h = (w.session.copyOf h).written w.clock :=
      copyOf_changed hat hw _
    rw [View.saved, if_neg hclean, save_dirty (Bool.eq_false_iff.mpr hclean), hat.id_eq hw]
    by_cases hwriting : w.session.writing = true
    · have hwrote := wrote_turns hat' hsent.coherent ((w.session.copyOf h).update w.clock)
      rw [hsent.view] at hwrote
      have hnow : writeNow id ((w.session.copyOf h).update w.clock) (w.sent h) =
          ((Store.update id ((w.session.copyOf h).update w.clock) w.drained).1, (w.sent h).consulted
            (Store.update id ((w.session.copyOf h).update w.clock) w.drained).2) :=
        writeNow_run (w := w.sent h) hwriting id _
      rw [if_pos (show w.view.writing = true from hwriting), hnow,
        show w.view.clock = w.clock from rfl, update_view]
      cases (Store.update id ((w.session.copyOf h).update w.clock) w.drained).1 with
      | ok _ => exact ⟨_, rfl, hsent.trans hwrote⟩
      | error e =>
        have hunsaved := unsaved_turns (hwrote.stays id h hat') hwrote.coherent
          (w.session.copyOf h).dirty
        rw [hwrote.view, show ((w.sent h).consulted _).session.copyOf h = _ from hcopy,
          View.put_write, View.put_put] at hunsaved
        exact ⟨_, rfl, (hsent.trans hwrote).trans hunsaved⟩
    · have hstopped : (w.sent h).session.writing = false := Bool.not_eq_true _ ▸ hwriting
      have hunsaved := unsaved_turns hat' hsent.coherent (w.session.copyOf h).dirty
      rw [hsent.view, hcopy, View.put_put] at hunsaved
      rw [if_neg (show ¬w.view.writing = true from hwriting), writeNow_stopped hstopped]
      exact ⟨_, rfl, hsent.trans hunsaved⟩

theorem saveLater_run (hat : w.At id h) (hw : w.Coherent) : ∃ w', saveLater h w = ((), w') ∧
    Turns w (w.view.savedLater id (w.session.copyOf h)) w' := by
  by_cases hclean : (w.session.copyOf h).dirty.isClean = true
  · rw [View.savedLater, if_pos hclean]
    exact ⟨w, saveLater_clean hclean, (Loaded.refl hw).turns⟩
  · have hsent := sent_turns hat hw
    have hat' : (w.sent h).At id h := hsent.stays id h hat
    rw [View.savedLater, if_neg hclean, saveLater_dirty (Bool.eq_false_iff.mpr hclean),
      hat'.id_eq hsent.coherent]
    by_cases hwriting : w.session.writing = true
    · have hqueued := queued_turns hat' hsent.coherent ((w.session.copyOf h).update w.clock)
      rw [hsent.view] at hqueued
      rw [if_pos (show w.view.writing = true from hwriting)]
      exact ⟨_, writeLater_run (w := w.sent h) hwriting id _, hsent.trans hqueued⟩
    · rw [if_neg (show ¬w.view.writing = true from hwriting)]
      exact ⟨_, writeLater_stopped (w := w.sent h) (Bool.not_eq_true _ ▸ hwriting) id _, hsent⟩

/-! ## Methods -/

theorem view_forgetting (w : World) (definer : ObjectId) (name : String) :
    World.view { w with session := w.session.forgetting definer name } = w.view := by
  unfold Session.forgetting
  cases w.session.compiled.get? definer <;> rfl

/-- A method of a copy is changed, and then it is forgotten what it was compiled to. -/
theorem methods_turns (hat : w.At id h) (hw : w.Coherent) (name : String)
    {f : OrderedDict String MethodDef → OrderedDict String MethodDef}
    (hf : ∀ methods other, other ≠ name → (f methods).get? other = methods.get? other)
    {definer : ObjectId} (hdefiner : definer = (w.session.copyOf h).record.id) :
    Turns w (w.view.put id (markMethod name (withMethods f (w.session.copyOf h))))
      { w with session :=
        ((w.session.change h (withMethods f)).change h (markMethod name)).forgetting definer name } where
  coherent := changeMethod_keeps h name hf hw hdefiner
  view := by
    have hview := view_changed hat hw fun c => markMethod name (withMethods f c)
    rw [Session.change_change]
    exact (view_forgetting (w.changed h fun c => markMethod name (withMethods f c)) definer name).trans
      hview
  stays := by
    intro other g hg
    unfold At Session.forgetting
    dsimp only [Session.change]
    cases w.session.compiled.get? definer <;> exact hg

theorem setMethod_run (hat : w.At id h) (hw : w.Coherent) (name : String) (m : MethodDef) :
    ∃ w', setMethod h name m w = ((), w') ∧ Turns w (w.view.put id
      (markMethod name (withMethods (fun methods => methods.put name m) (w.session.copyOf h)))) w' := by
  let s := (w.session.change h (withMethods fun methods => methods.put name m)).change h
    (markMethod name)
  have hid : (s.copyOf h).record.id = (w.session.copyOf h).record.id := by
    have hmarked := Session.copyOf_change_id
      (s := w.session.change h (withMethods fun methods => methods.put name m))
      (f := markMethod name) (fun _ => rfl) h
    have hput := Session.copyOf_change_id (s := w.session)
      (f := withMethods fun methods => methods.put name m) (fun _ => rfl) h
    exact hmarked.trans hput
  exact ⟨_, rfl, methods_turns hat hw name (fun methods _ hne => methods.get?_put_ne m hne) hid⟩

theorem removeMethod_run (hat : w.At id h) (hw : w.Coherent) (name : String) :
    ∃ w', removeMethod h name w = ((w.session.copyOf h).record.methods.has name, w') ∧
      Turns w (if (w.session.copyOf h).record.methods.has name then w.view.put id
        (markMethod name (withMethods (fun methods => methods.remove name) (w.session.copyOf h)))
        else w.view) w' := by
  have hrun : removeMethod h name w = (if (w.session.copyOf h).record.methods.has name then (do
      onRecord h fun r => { r with methods := r.methods.remove name }
      onDirty h fun d => { d with methods := d.methods.add name }
      forgetCompiled (w.session.copyOf h).record.id name
      return true)
    else return false : StateM World Bool) w := rfl
  rw [hrun]
  cases hhas : (w.session.copyOf h).record.methods.has name with
  | false => exact ⟨w, rfl, (Loaded.refl hw).turns⟩
  | true => exact ⟨_, rfl, methods_turns hat hw name
      (fun methods _ hne => methods.get?_remove_ne hne) rfl⟩

/-! ## Objects -/

/-- An object leaves memory, and is seen as it is stored. -/
theorem view_dropping (hw : w.Coherent) (id : ObjectId) :
    World.view { w with session := w.session.dropping id } = w.view.drop id := by
  have hseen : World.seen { w with session := w.session.dropping id } =
      fun other => if other = id then w.view.store.fresh id else w.seen other := by
    funext other
    rw [World.seen, Session.resident_dropping hw.session]
    by_cases hother : other = id
    · rw [if_pos hother, if_pos hother, hother, Store.fresh, Store.fresh,
        show w.view.store.read = w.drained.read from w.drained_same.read]
      rfl
    · rw [if_neg hother, if_neg hother, World.seen]
      rfl
  rw [World.view, hseen]
  rfl

variable (parent : ObjectId) (properties : OrderedDict String Value)
  (methods : OrderedDict String MethodDef)

theorem create_run_failed (hw : w.Coherent) (hc : w.drained.isConnected = true) {e : StoreError}
    (he : w.drained.next = .error e) : ∃ w',
      (create parent properties methods).run w = (.error (.persistence e), w') ∧ Loaded w w' := by
  rw [create_eq, Store.create_failed hc he]
  exact ⟨_, rfl, consulted_loaded hw (.refl _)⟩

/-- An object that nothing has been seen of is stored, and a copy of it is resident. -/
theorem create_run (hw : w.Coherent) (hc : w.drained.isConnected = true) {n : Int64}
    (hn : w.drained.next = .ok n) (hfresh : w.seen ⟨n⟩ = .ok none) : ∃ h w',
      (create parent properties methods).run w = (.ok h, w') ∧ w'.At ⟨n⟩ h ∧
        Turns w (w.view.add n (draft parent properties methods w.clock)) w' := by
  obtain ⟨s, hcreate, hwrote, -⟩ := Store.create_run hc (drained_faithful hw) hn
    (draft parent properties methods w.clock)
  -- A resident copy would be seen, so there is none that the new one could replace.
  have habsent : w.session.resident.get? ⟨n⟩ = none := by
    cases hres : w.session.resident.get? ⟨n⟩ with
    | none => rfl
    | some h => rw [At.seen hres] at hfresh; cases hfresh
  let record : Record := { draft parent properties methods w.clock with id := ⟨n⟩ }
  have hadopt : adopt record (w.consulted s) =
      (⟨w.session.copies.size⟩, { w.consulted s with session := (w.consulted s).session.adopting record }) :=
    adopt_absent habsent
  rw [create_eq, hcreate]
  dsimp only
  rw [hadopt]
  refine ⟨_, _, rfl, Dict.get?_put_self _ _ _, ?_, ?_, ?_⟩
  · have hfaithful : s.Faithful := by
      have hedit := (Store.Edit.create w.drained (draft parent properties methods w.clock)).faithful
        (drained_faithful hw)
      rw [hcreate] at hedit
      exact hedit
    exact ⟨(hw.session.irrelevant _ _ _).adopting habsent, hfaithful⟩
  · have hview := view_adopting (w := w.consulted s) (hw.session.irrelevant _ _ _) record
    -- The view is that with the new record put in: of all others nothing else is seen.
    have hseen : ((w.consulted s).view.put ⟨n⟩ { record }).seen = (w.view.put ⟨n⟩ { record }).seen := by
      funext other
      show (if other = ⟨n⟩ then _ else (w.consulted s).seen other) =
        if other = ⟨n⟩ then _ else w.seen other
      by_cases hother : other = ⟨n⟩
      · rw [if_pos hother, if_pos hother]
      · rw [if_neg hother, if_neg hother, World.seen, World.seen,
          show (w.consulted s).drained = s from rfl, Store.fresh, Store.fresh,
          hwrote.others other hother]
        rfl
    have hstore : s.uncounted =
        (Store.create (draft parent properties methods w.clock) w.view.store).2.uncounted := by
      have hsame := (w.drained_same.create (draft parent properties methods w.clock)).2
      rw [hcreate] at hsame
      exact hsame.symm
    refine hview.trans ?_
    rw [View.add, ← hstore]
    exact congrArg (fun seen => { w.view.put ⟨n⟩ { record } with seen, store := s.uncounted }) hseen
  · exact fun _ _ hat => at_adopting (w := w.consulted s) habsent hat

end World

end Lineage
