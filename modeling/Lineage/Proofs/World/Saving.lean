/-
  Lineage.Proofs.World.Saving

  What becomes of the waiting writes, and of a copy when it is changed, saved or refreshed.

  Each lemma writes out what an operation on a handle leaves: the copy that the handle
  names, what is stored and what waits to be written.
-/
import Lineage.Proofs.World.Logic
import Lineage.Proofs.World.Sessions

namespace Lineage.World

variable {w : World} {h : Handle}

/-! ## Writing behind -/

/-- What is stored once the waiting writes have been applied. -/
def drained (w : World) : Store := w.session.queue.foldl applyJob w.store

/-- The world after the waiting writes have been applied. -/
def settled (w : World) : World :=
  { w with store := w.drained, session := { w.session with queue := [] } }

/-- The oldest of the waiting writes is applied. -/
def writeNext (w : World) : World :=
  match w.session.queue with
  | [] => w
  | job :: rest =>
    { w with store := applyJob w.store job, session := { w.session with queue := rest } }

theorem settle_run (w : World) : settle w = ((), w.settled) := rfl

theorem writeNow_eq (id : ObjectId) (u : Update) : writeNow id u w =
    (if w.session.writing then settle >>= fun _ => onStore (Store.update id u)
      else pure (.error .notConnected) : StateM World _) w := rfl

theorem writeNow_run (h : w.session.writing = true) (id : ObjectId) (u : Update) :
    writeNow id u w = ((Store.update id u w.drained).1,
      { w.settled with store := (Store.update id u w.drained).2 }) := by
  rw [writeNow_eq, if_pos h]
  rfl

theorem writeNow_stopped (h : w.session.writing = false) (id : ObjectId) (u : Update) :
    writeNow id u w = (.error .notConnected, w) := by
  rw [writeNow_eq, if_neg (Bool.eq_false_iff.mp h)]
  rfl

theorem writeLater_eq (id : ObjectId) (u : Update) : writeLater id u w = ((), { w with session :=
    if w.session.writing then { w.session with queue := w.session.queue ++ [⟨id, u⟩] }
    else w.session }) := rfl

theorem writeLater_run (h : w.session.writing = true) (id : ObjectId) (u : Update) :
    writeLater id u w =
      ((), { w with session := { w.session with queue := w.session.queue ++ [⟨id, u⟩] } }) := by
  rw [writeLater_eq, if_pos h]

theorem writeLater_stopped (h : w.session.writing = false) (id : ObjectId) (u : Update) :
    writeLater id u w = ((), w) := by
  rw [writeLater_eq, if_neg (Bool.eq_false_iff.mp h)]

/-! ## Saving -/

/-- The world after the changes of a copy are on their way to the store. -/
def sent (w : World) (h : Handle) : World :=
  { w with session := w.session.change h fun c => c.written w.clock }

theorem takeUpdate_clean (hclean : (w.session.copyOf h).dirty.isClean = true) :
    takeUpdate h w = (none, w) := by
  show (if (w.session.copyOf h).dirty.isClean then pure none else _ : StateM World _) w = _
  rw [if_pos hclean]
  rfl

theorem takeUpdate_dirty (hdirty : (w.session.copyOf h).dirty.isClean = false) :
    takeUpdate h w = (some ((w.session.copyOf h).update w.clock), w.sent h) := by
  show (if (w.session.copyOf h).dirty.isClean then pure none else _ : StateM World _) w = _
  rw [if_neg (Bool.eq_false_iff.mp hdirty)]
  rfl

theorem save_clean (hclean : (w.session.copyOf h).dirty.isClean = true) :
    (save h).run w = (.ok false, w) := by
  have hcopy : copy h w = (w.session.copyOf h, w) := rfl
  unfold save
  rw [run_lift_bind, hcopy, run_lift_bind, takeUpdate_clean hclean]
  rfl

/-- The world after changes have not been written: they are marked as before. -/
def unsaved (w : World) (h : Handle) (d : Dirty) : World :=
  { w with session := w.session.change h fun c => { c with dirty := c.dirty.merge d } }

theorem save_dirty (hdirty : (w.session.copyOf h).dirty.isClean = false) :
    (save h).run w =
      match writeNow (w.session.copyOf h).record.id ((w.session.copyOf h).update w.clock)
          (w.sent h) with
      | (.ok _, w₁) => (.ok true, w₁)
      | (.error e, w₁) => (.error (.persistence e), w₁.unsaved h (w.session.copyOf h).dirty) := by
  have hcopy : copy h w = (w.session.copyOf h, w) := rfl
  unfold save
  rw [run_lift_bind, hcopy, run_lift_bind, takeUpdate_dirty hdirty]
  dsimp only
  rw [run_lift_bind]
  rcases writeNow (w.session.copyOf h).record.id ((w.session.copyOf h).update w.clock) (w.sent h)
    with ⟨_ | _, w₁⟩ <;> rfl

theorem saveLater_clean (hclean : (w.session.copyOf h).dirty.isClean = true) :
    saveLater h w = ((), w) := by
  show (takeUpdate h >>= _) w = _
  simp only [Bind.bind, StateT.bind, takeUpdate_clean hclean]
  rfl

theorem saveLater_dirty (hdirty : (w.session.copyOf h).dirty.isClean = false) :
    saveLater h w = writeLater ((w.sent h).session.copyOf h).record.id
      ((w.session.copyOf h).update w.clock) (w.sent h) := by
  show (takeUpdate h >>= _) w = _
  simp only [Bind.bind, StateT.bind, takeUpdate_dirty hdirty]
  rfl

/-! ## Refreshing -/

/-- The world after a copy has been replaced by a record, which is resident then. -/
def refreshed (w : World) (h : Handle) (record : Record) : World :=
  { w with session := { w.session.change h (fun _ => { record }) with
      resident := w.session.resident.put record.id h } }

/-- The world after an object has left memory and the waiting writes have been applied. -/
def reread (w : World) (id : ObjectId) : World :=
  { w with
    store := (Store.fetch id w.drained).2
    session := { w.session.dropping id with queue := [] } }

theorem refresh_run : (refresh h).run w =
    match (Store.fetch (w.session.copyOf h).record.id w.drained).1 with
    | .error e => (.error (.persistence e), w.reread (w.session.copyOf h).record.id)
    | .ok none =>
      (.error (.notFound (w.session.copyOf h).record.id), w.reread (w.session.copyOf h).record.id)
    | .ok (some record) =>
      (.ok (), (w.reread (w.session.copyOf h).record.id).refreshed h record) := by
  show ((fetch (w.session.copyOf h).record.id : Action _) >>= _).run
    { w with session := w.session.dropping (w.session.copyOf h).record.id } = _
  have hfetch : (fetch (w.session.copyOf h).record.id).run
      { w with session := w.session.dropping (w.session.copyOf h).record.id } =
        ((Store.fetch (w.session.copyOf h).record.id w.drained).1.mapError RuntimeError.persistence,
          w.reread (w.session.copyOf h).record.id) := by
    unfold fetch
    rw [run_lift_bind, access_run]
    rfl
  rw [run_bind, hfetch]
  rcases (Store.fetch (w.session.copyOf h).record.id w.drained).1 with e | _ | record <;> rfl

end Lineage.World
