/-
  Lineage.Proofs.World.Reparenting

  Which parents are refused, and what comes of those that are not.

  A resident object is refused a parent exactly where the parent is the object itself or
  stands below it, however objects are stored, circles and missing parents included.  A
  parent that is not refused is written at once, and following parents from the object
  does not come back to it.  Where the store fails to give something that the parent stands
  below, the failure is the answer, and nothing has changed
  (`World.Reachable.loops_refused`).
-/
import Lineage.Proofs.World.Descent
import Lineage.Proofs.World.Failures
import Lineage.Proofs.World.Lookups
import Lineage.Proofs.World.Numbering

namespace Lineage

-- Nothing here depends on what the compiler makes of a source, or on how a run goes.
attribute [local irreducible] Program.compile Machine.run ObjectId.bytes

/-- What stands below an object when it is met differently stood below it before: the first way up
that comes to it meets all others as before. -/
theorem Below.before {met met' : ObjectId → Except StoreError (Option Copy)} {id other : ObjectId}
    (hothers : ∀ other, other ≠ id → met' other = met other) (h : Below met' id other) :
    Below met id other := by
  induction h with
  | self => exact .self
  | @up other c hnot hmet hparent _ ih =>
    by_cases hother : other = id
    · exact hother ▸ .self
    · exact .up hnot (hothers other hother ▸ hmet) hparent ih

/-- A copy with another parent, after its changes have been taken to be written. -/
def Copy.moved (c : Copy) (parent : ObjectId) (now : Timestamp) (d : Dirty) : Copy :=
  { record := { c.record with parent, modified := now }, dirty := d }

/-- What giving a copy a parent and saving it comes to. -/
theorem View.placed_eq (v : View) (id : ObjectId) (c : Copy) (parent : ObjectId) :
    v.placed id c parent =
      if v.writing then match (Store.update id ((c.under parent).update v.clock) v.store).1 with
        | .ok _ =>
          (.ok true, (v.put id (c.moved parent v.clock {})).write id ((c.under parent).update v.clock))
        | .error e => (.error e, (v.put id
            (c.moved parent v.clock (Dirty.merge {} (c.under parent).dirty))).write id
              ((c.under parent).update v.clock))
      else (.error .notConnected,
        v.put id (c.moved parent v.clock (Dirty.merge {} (c.under parent).dirty))) := by
  have hdirty : ¬(c.under parent).dirty.isClean = true := nofun
  unfold View.placed View.saved
  rw [if_neg hdirty]
  simp only [View.put_put]
  rfl

namespace World

variable {w w' : World} {id : ObjectId} {h : Handle} {parent : ObjectId}

/-- An object has another parent.  Its copy is otherwise as it was, whatever another object is met
as has not changed, and following parents does not lead back to the object. -/
structure Moved (w w' : World) (id : ObjectId) (h : Handle) (parent : ObjectId) : Prop where
  coherent : w'.Coherent
  stays : ∀ other g, w.At other g → w'.At other g
  record : (w'.session.copyOf h).record =
    { (w.session.copyOf h).record with parent, modified := w.clock }
  others : ∀ other, other ≠ id → w'.met other = w.met other
  straight : ¬Below w'.met id parent

/-- The copy of an object has been written with its parent, after the writes that waited.  Of no other
object anything else is stored than before. -/
structure Written (w w' : World) (id : ObjectId) (h : Handle) (parent : ObjectId) : Prop where
  clean : (w'.session.copyOf h).dirty.isClean = true
  queue : w'.session.queue = []
  place : w'.store.place id = some ⟨parent, (w.session.copyOf h).record.recycled⟩
  others : ∀ other, other ≠ id → w'.store.read other = w.drained.read other

/-! ## Changing the parent -/

/-- The object is viewed with its parent, and all others as before. -/
theorem Turns.moved (hat : w.At id h) (hfree : ¬Below w.met id parent)
    (hc : w.drained.isConnected = true) {v : View} (hturns : Turns w v w') {d : Dirty}
    (hseen : v.seen = (w.view.put id ((w.session.copyOf h).moved parent w.clock d)).seen)
    (hconnected : v.store.isConnected = true) :
    Moved w w' id h parent ∧ w'.session.copyOf h = (w.session.copyOf h).moved parent w.clock d := by
  have hview : w'.seen = (w.view.put id ((w.session.copyOf h).moved parent w.clock d)).seen :=
    (congrArg View.seen hturns.view).trans hseen
  have hcopy : w'.session.copyOf h = (w.session.copyOf h).moved parent w.clock d :=
    (hturns.stays id h hat).copy_eq ((congrFun hview id).trans (if_pos rfl))
  have hstore : w'.drained.uncounted = v.store := congrArg View.store hturns.view
  have hopen : w'.drained.isConnected = true := by
    rw [← w'.drained_same.isConnected, hstore, hconnected]
  have hothers (other : ObjectId) (hother : other ≠ id) : w'.met other = w.met other := by
    rw [met_connected hopen, met_connected hc, hview]
    exact if_neg hother
  refine ⟨⟨hturns.coherent, hturns.stays, ?_, hothers, fun hbelow => hfree (hbelow.before hothers)⟩,
    hcopy⟩
  rw [hcopy]
  rfl

/-- Saving a copy that has changed leaves nothing waiting when it succeeds. -/
theorem save_queue (hdirty : (w.session.copyOf h).dirty.isClean = false) {saved : Bool}
    (hsave : (save h).run w = (.ok saved, w')) : w'.session.queue = [] := by
  rw [save_dirty hdirty] at hsave
  cases hwriting : w.session.writing with
  | true =>
    rw [writeNow_run (w := w.sent h) hwriting] at hsave
    split at hsave
    · rename_i hwrote
      cases hsave
      exact congrArg (fun p => p.2.session.queue) hwrote.symm
    · cases hsave
  | false =>
    rw [writeNow_stopped (w := w.sent h) hwriting] at hsave
    cases hsave

/-- So does giving an object another parent. -/
theorem setParent_queue (hw : w.Coherent) (hgiven : w.session.Given h)
    (hrun : (setParent h parent).run w = (.ok (), w')) : w'.session.queue = [] := by
  have hbrowsed := allowParent_browses hw (w.session.copyOf h).record.id parent
  rw [setParent_run] at hrun
  rcases hallowed : (allowParent (w.session.copyOf h).record.id parent).run w with ⟨e | _, w₁⟩
  · rw [hallowed] at hrun
    cases hrun
  · rw [hallowed] at hrun hbrowsed
    dsimp only at hrun hbrowsed
    rw [reparent, run_lift_bind, run_lift_bind, run_bind, amend_eq] at hrun
    have hdirty : ((w₁.changed h fun c => c.under parent).session.copyOf h).dirty.isClean = false := by
      rw [changed, Session.copyOf_change_self (hbrowsed.given h hgiven)]
      rfl
    rcases hsave : (save h).run _ with ⟨e | saved, w₂⟩
    · rw [hsave] at hrun
      cases hrun
    · rw [hsave] at hrun
      cases hrun
      exact save_queue (w := w₁.changed h fun c => c.under parent) hdirty hsave

/-- A parent that is not refused becomes the parent of the object, and is written unless no more
writes are taken. -/
theorem setParent_moves (hw : w.Coherent) (hc : w.drained.isConnected = true) (hat : w.At id h)
    (hok : w.verdict id parent = .ok ()) (hfree : ¬Below w.met id parent)
    (hclock : w.clock.Valid) (hstored : w.drained.place id ≠ none) : ∃ result w',
      (setParent h parent).run w = (result, w') ∧ Moved w w' id h parent ∧
      if w.session.writing then result = .ok () ∧ Written w w' id h parent
      else result = .error (.persistence .notConnected) ∧ w'.drained.Same w.drained := by
  obtain ⟨w', hrun, hturns⟩ := setParent_allowed hat hw hc hok
  rw [View.placed_eq, show w.view.writing = w.session.writing from rfl] at hrun hturns
  have hopen : w.view.store.isConnected = true := by
    rw [show w.view.store = w.drained.uncounted from rfl, w.drained_same.isConnected, hc]
  by_cases hwriting : w.session.writing = true
  · obtain ⟨p, hp⟩ := Option.ne_none_iff_exists'.mp hstored
    have hupdate := Store.place_written (drained_faithful hw) hc hp
      (((w.session.copyOf h).under parent).update_timed hclock)
    rw [if_pos hwriting, show w.view.clock = w.clock from rfl, update_view, hupdate.1] at hrun hturns
    have hsame : w'.drained.Same (Store.update id (((w.session.copyOf h).under parent).update w.clock)
        w.drained).2 :=
      (congrArg View.store hturns.view).trans
        (w.drained_same.update id (((w.session.copyOf h).under parent).update w.clock)).2
    have hwrote := Store.update_wrote (drained_faithful hw) id
      (((w.session.copyOf h).under parent).update w.clock)
    obtain ⟨hmoved, hcopy⟩ := hturns.moved hat hfree hc (d := {}) rfl <| by
      rw [← congrArg View.store hturns.view]
      exact (w'.drained_same.isConnected.trans hsame.isConnected).trans (hwrote.connected.trans hc)
    have hqueue := setParent_queue hw (hw.session.given id h hat) hrun
    have hdrained : w'.drained = w'.store := by rw [drained, hqueue]; rfl
    rw [hdrained] at hsame
    refine ⟨_, w', hrun, hmoved, ?_⟩
    rw [if_pos hwriting]
    refine ⟨rfl, by rw [hcopy]; rfl, hqueue, ?_, fun other hother => ?_⟩
    · rw [hsame.place, hupdate.2]
      rfl
    · rw [hsame.read, hwrote.others other hother]
  · rw [if_neg hwriting] at hrun hturns
    obtain ⟨hmoved, -⟩ := hturns.moved hat hfree hc rfl hopen
    refine ⟨_, w', hrun, hmoved, ?_⟩
    rw [if_neg hwriting]
    exact ⟨rfl, congrArg View.store hturns.view⟩

/-! ## Which parents are refused -/

/-- A resident object that is stored is refused a parent exactly if it is the parent or the parent
stands below it, and then nothing has changed.  Otherwise, if the store fails to give something that
the parent stands below, its failure is the answer, and nothing has changed either.  Otherwise the
object has the parent, following parents does not lead back to it, and no other object has changed;
the parent is written at once, unless no more writes are taken. -/
theorem Reachable.loops_refused (hw : Reachable w) (hopen : w.store.isConnected = true)
    (hclock : w.clock.Valid) (hat : w.At id h) (hstored : w.drained.place id ≠ none)
    (parent : ObjectId) : ∃ result w', (setParent h parent).run w = (result, w') ∧
      (result = .error (.recursiveParent id parent) ↔ Below w.met id parent) ∧
      (Below w.met id parent → Stands w w') ∧
      (¬Below w.met id parent → ∀ e, CutShort w.met parent e →
        result = .error (.persistence e) ∧ Stands w w') ∧
      (¬Below w.met id parent → (∀ e, ¬CutShort w.met parent e) → Moved w w' id h parent ∧
        if w.session.writing then result = .ok () ∧ Written w w' id h parent
        else result = .error (.persistence .notConnected) ∧ w'.drained.Same w.drained) := by
  have hcoherent := hw.coherent
  have hc : w.drained.isConnected = true := (drained_frame hcoherent).1.trans hopen
  have hrefused {e : RuntimeError} (he : w.verdict id parent = .error e) :
      ∃ w', (setParent h parent).run w = (.error e, w') ∧ Stands w w' := by
    obtain ⟨w', hrun, -⟩ := setParent_refused hat hcoherent hc he
    have hbrowsed := allowParent_browses hcoherent (w.session.copyOf h).record.id parent
    obtain ⟨w₁, hallowed, -⟩ := allowParent_view hcoherent hc id parent
    rw [setParent_run, hat.id_eq hcoherent, hallowed, he] at hrun
    cases hrun
    rw [hat.id_eq hcoherent, hallowed] at hbrowsed
    refine ⟨w', ?_, hbrowsed.stands hcoherent⟩
    rw [setParent_run, hat.id_eq hcoherent, hallowed, he]
  rcases verdict_cases hcoherent hc hat parent with ⟨hbelow, he⟩ | ⟨hfree, e, hcut, he⟩ |
    ⟨hfree, hwhole, hok⟩
  · obtain ⟨w', hrun, hstands⟩ := hrefused he
    exact ⟨_, w', hrun, iff_of_true rfl hbelow, fun _ => hstands,
      fun hfree => absurd hbelow hfree, fun hfree => absurd hbelow hfree⟩
  · obtain ⟨w', hrun, hstands⟩ := hrefused he
    refine ⟨_, w', hrun, iff_of_false nofun hfree, fun hbelow => absurd hbelow hfree,
      fun _ e' hcut' => ⟨?_, hstands⟩, fun _ hwhole => absurd hcut (hwhole e)⟩
    rw [hcut.unique hcut']
  · obtain ⟨result, w', hrun, hmoved, hwritten⟩ :=
      setParent_moves hcoherent hc hat hok hfree hclock hstored
    refine ⟨result, w', hrun, iff_of_false (fun hresult => ?_) hfree,
      fun hbelow => absurd hbelow hfree, fun _ e hcut => absurd hcut (hwhole e),
      fun _ _ => ⟨hmoved, hwritten⟩⟩
    rw [hresult] at hwritten
    split at hwritten <;> exact nomatch hwritten.1

/-- Of two objects that are each other's parent the first is refused the second, and gets a parent
that does not exist. -/
theorem Reachable.loops_refused_paired :
    (∃ w', (setParent ⟨0⟩ ⟨1⟩).run paired = (.error (.recursiveParent ⟨0⟩ ⟨1⟩), w') ∧
      Stands paired w') ∧
    ∃ w', (setParent ⟨0⟩ ⟨7⟩).run paired = (.ok (), w') ∧ Written paired w' ⟨0⟩ ⟨0⟩ ⟨7⟩ := by
  have hopen : paired.store.isConnected = true := by decide +kernel
  have hat : paired.At ⟨0⟩ ⟨0⟩ := by
    show Dict.get? _ _ = _
    decide +kernel
  have hstored : paired.drained.place ⟨0⟩ ≠ none := by decide +kernel
  have hloops := paired_reachable.loops_refused hopen Timestamp.epoch_valid hat hstored
  constructor
  · obtain ⟨result, w', hrun, hiff, hstands, -⟩ := hloops ⟨1⟩
    have hbelow : Below paired.met ⟨0⟩ ⟨1⟩ :=
      .up (c := paired.session.copyOf ⟨1⟩) (by decide) rfl (by decide +kernel) .self
    rw [hiff.mpr hbelow] at hrun
    exact ⟨w', hrun, hstands hbelow⟩
  · -- Nothing can be loaded under that id, so nothing leads on from there.
    have hnone : paired.met ⟨7⟩ = .ok none := rfl
    have hend {other : ObjectId} (hbelow : Below paired.met other ⟨7⟩) : other = ⟨7⟩ := by
      cases hbelow with
      | self => rfl
      | up _ hmet _ _ => rw [hnone] at hmet; cases hmet
    have hfree : ¬Below paired.met ⟨0⟩ ⟨7⟩ := fun hbelow => nomatch hend hbelow
    have hwhole (e : StoreError) : ¬CutShort paired.met ⟨7⟩ e := by
      rintro ⟨other, -, hbelow, hfailed⟩
      rw [hend hbelow, hnone] at hfailed
      cases hfailed
    obtain ⟨result, w', hrun, -, -, -, hmoves⟩ := hloops ⟨7⟩
    obtain ⟨-, hresult, hwritten⟩ := hmoves hfree hwhole
    rw [hresult] at hrun
    exact ⟨w', hrun, hwritten⟩

/-- A session of a durable store with two objects, the first of which was saved with a float that is
not read back and then left memory. -/
def smudged : World :=
  [.create .nothing {} {}, .setProperty ⟨0⟩ "big" (.float .infinity), .save ⟨0⟩,
    .create .nothing {} {}, .invalidate ⟨0⟩].foldl (fun w op => Operation.after op w)
    ((openSession {}).run (initial (.durable {}) {})).2

theorem smudged_reachable : Reachable smudged := by
  have hcreated := (Reachable.start (.durable {}) {} Store.Faithful.durable_nil).operate
    (.create .nothing {} {}) nofun
  have hset := hcreated.operate (.setProperty ⟨0⟩ "big" (.float .infinity)) fun h hh => by
    cases hh
    show 0 < _
    decide +kernel
  have hsaved := hset.operate (.save ⟨0⟩) fun h hh => by
    cases hh
    show 0 < _
    decide +kernel
  exact (hsaved.operate (.create .nothing {} {}) nofun).operate (.invalidate ⟨0⟩) nofun

/-- The second object does not get the first for its parent, though the first does not stand below
it: the store fails to give the first. -/
theorem Reachable.loops_refused_smudged : Reachable smudged ∧ smudged.store.isConnected = true ∧
    smudged.At ⟨1⟩ ⟨1⟩ ∧ smudged.drained.place ⟨1⟩ = some ⟨.nothing, false⟩ ∧
    ¬Below smudged.met ⟨1⟩ ⟨0⟩ ∧ ∃ e w', (setParent ⟨1⟩ ⟨0⟩).run smudged = (.error e, w') ∧
      (w'.session.copyOf ⟨1⟩).record.parent = .nothing ∧
      w'.drained.place ⟨1⟩ = some ⟨.nothing, false⟩ := by
  have hcoherent := smudged_reachable.coherent
  have hopen : smudged.store.isConnected = true := by decide +kernel
  have hc : smudged.drained.isConnected = true := (drained_frame hcoherent).1.trans hopen
  have hat : smudged.At ⟨1⟩ ⟨1⟩ := by
    show Dict.get? _ _ = _
    decide +kernel
  have hplace : smudged.drained.place ⟨1⟩ = some ⟨.nothing, false⟩ := by decide +kernel
  obtain ⟨e, hfailed⟩ : ∃ e, smudged.met ⟨0⟩ = .error e := by
    have hnot : (smudged.met ⟨0⟩).isOk = false := by decide +kernel
    cases hmet : smudged.met ⟨0⟩ with
    | error e => exact ⟨e, rfl⟩
    | ok found => rw [hmet] at hnot; cases hnot
  have hfree : ¬Below smudged.met ⟨1⟩ ⟨0⟩ := by
    intro hbelow
    cases hbelow with
    | up _ hmet _ _ => rw [hfailed] at hmet; cases hmet
  have hcut : CutShort smudged.met ⟨0⟩ e := ⟨⟨0⟩, nofun, .self, hfailed⟩
  rcases verdict_cases hcoherent hc hat ⟨0⟩ with ⟨hbelow, -⟩ | ⟨-, e', -, he⟩ | ⟨-, hwhole, -⟩
  · exact absurd hbelow hfree
  · obtain ⟨w', hrun, hloaded⟩ := setParent_refused hat hcoherent hc he
    refine ⟨smudged_reachable, hopen, hat, hplace, hfree, _, w', hrun, ?_, ?_⟩
    · rw [hloaded.copy_eq hat]
      decide +kernel
    · rw [hloaded.drained.place, hplace]
  · exact absurd hcut (hwhole e)

end World

end Lineage
