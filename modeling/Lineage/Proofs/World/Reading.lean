/-
  Lineage.Proofs.World.Reading

  What no operation that only reads can change.

  Loading objects and following their parents is made of three steps: the waiting writes
  are applied, a record is read from the store, and it is adopted as a copy.  An invariant
  that each of them keeps (`Unread`) is kept by all that is made of them.
-/
import Lineage.Proofs.World.Logic
import Lineage.Proofs.World.Saving
import Lineage.Proofs.Store.Counting

namespace Lineage.World

/-- Reading does not touch this. -/
structure Unread (I : World → Prop) : Prop where
  settle : Keeps I settle
  fetch : ∀ id, Guards I (access (Store.fetch id))
  adopt : ∀ record, Keeps I (adopt record)

namespace Unread

variable {I : World → Prop} (hI : Unread I)
include hI

theorem loadWith (recycledToo : Bool) (id : ObjectId) : Guards I (loadWith recycledToo id) := by
  have hpick (h : Handle) : Guards I
      (do if (← recordOf h).recycled && !recycledToo then return none else return some h : Action _) := by
    refine .bind (.lift (Q := fun _ => I) fun _ hw => hw) fun record => ?_
    split <;> exact .pure _ fun _ hw => hw
  refine .bind (.lift (Q := fun _ => I) fun _ hw => hw) fun found => ?_
  cases found with
  | some h => exact hpick h
  | none =>
    refine .bind (.bind (.lift hI.settle) fun _ => hI.fetch id) fun found => ?_
    cases found with
    | none => exact .pure _ fun _ hw => hw
    | some record =>
      by_cases hskip : (record.recycled && !recycledToo) = true
      · simp only [hskip, if_true]
        exact .pure _ fun _ hw => hw
      · simp only [hskip]
        exact .bind (.lift (hI.adopt record)) hpick

/-- Induction on the fuel. -/
theorem climb {α : Type} (probe : Record → Option α) (fuel : Nat) (visited : List ObjectId)
    (h : Handle) : Guards I (climb probe fuel visited h) := by
  induction fuel generalizing visited h with
  | zero => exact .pure _ fun _ hw => hw
  | succ fuel ih =>
    refine .bind (.lift (Q := fun _ => I) fun _ hw => hw) fun record => ?_
    split
    · exact .pure _ fun _ hw => hw
    · split
      · exact .pure _ fun _ hw => hw
      · split
        · exact .pure _ fun _ hw => hw
        · refine .bind (hI.loadWith true record.parent) fun found => ?_
          cases found with
          | some ancestor => exact ih _ ancestor
          | none => exact .pure _ fun _ hw => hw

theorem resolve {α : Type} (h : Handle) (probe : Record → Option α) : Guards I (resolve h probe) :=
  .bind .get fun _ => .weaken (hI.climb probe _ [] h) fun _ hw => hw.2

theorem reaches (h : Handle) (id : ObjectId) : Guards I (reaches h id) :=
  .bind (hI.resolve h _) fun _ => .pure _ fun _ hw => hw

end Unread

/-! ## Giving an object another parent -/

/-- Whether an object may get a parent: not if that makes it its own ancestor. -/
def allowParent (id parent : ObjectId) : Action Unit := do
  if parent = id then throw (.recursiveParent id parent)
  if parent ≠ .nothing then
    if let some ancestor ← loadWith true parent then
      if ← reaches ancestor id then throw (.recursiveParent id parent)

/-- A parent is written down, and saved. -/
def reparent (h : Handle) (parent : ObjectId) : Action Unit := do
  onRecord h fun r => { r with parent }
  onDirty h fun d => { d with header := true }
  let _ ← save h

theorem reparent_run (h : Handle) (parent : ObjectId) (w : World) {result : Except RuntimeError Bool}
    {w' : World} (hsave : (save h).run ((do
      onRecord h fun r => { r with parent }
      onDirty h fun d => { d with header := true } : StateM World Unit) w).2 = (result, w')) :
    (reparent h parent).run w = (result.map fun _ => (), w') := by
  unfold reparent
  rw [run_lift_bind, run_lift_bind, run_bind]
  have hsave' : (save h).run (onDirty h (fun d => { d with header := true })
      (onRecord h (fun r => { r with parent }) w).2).2 = (result, w') := hsave
  rw [hsave']
  cases result <;> rfl

theorem setParent_run (h : Handle) (parent : ObjectId) (w : World) : (setParent h parent).run w =
    match (allowParent (w.session.copyOf h).record.id parent).run w with
    | (.ok _, w₁) => (reparent h parent).run w₁
    | (.error e, w₁) => (.error e, w₁) := by
  have hrecord : recordOf h w = ((w.session.copyOf h).record, w) := rfl
  unfold setParent allowParent
  rw [run_lift_bind, hrecord]
  dsimp only
  by_cases hself : parent = (w.session.copyOf h).record.id
  · rw [if_pos hself, if_pos hself]
    rfl
  · rw [if_neg hself, if_neg hself]
    by_cases hnothing : parent ≠ .nothing
    · rw [if_pos hnothing, if_pos hnothing, run_bind, run_bind]
      rcases (loadWith true parent).run w with ⟨e | _ | ancestor, w₁⟩
      · rfl
      · rfl
      · dsimp only
        rw [run_bind, run_bind]
        rcases (reaches ancestor (w.session.copyOf h).record.id).run w₁ with ⟨e | _ | _, w₂⟩ <;> rfl
    · rw [if_neg hnothing, if_neg hnothing]
      rfl

/-- Whether a parent is allowed is found out by loading it and following parents from there. -/
theorem allowParent_keeps {I : World → Prop} (hload : ∀ recycledToo id, Guards I (loadWith recycledToo id))
    (hreaches : ∀ h id, Guards I (reaches h id)) (id parent : ObjectId) :
    Guards I (allowParent id parent) := by
  unfold World.allowParent
  by_cases hself : parent = id
  · rw [if_pos hself]
    exact .thrown _ fun _ hw => hw
  · rw [if_neg hself]
    by_cases hnothing : parent ≠ .nothing
    · rw [if_pos hnothing]
      refine .bind (hload true parent) fun found => ?_
      cases found with
      | none => exact .pure _ fun _ hw => hw
      | some ancestor =>
        refine .bind (hreaches ancestor id) fun cyclic => ?_
        cases cyclic with
        | true => exact .throw _ fun _ hw => hw
        | false => exact .pure _ fun _ hw => hw
    · rw [if_neg hnothing]
      exact .pure _ fun _ hw => hw

theorem Unread.allowParent {I : World → Prop} (hI : Unread I) (id parent : ObjectId) :
    Guards I (allowParent id parent) :=
  allowParent_keeps hI.loadWith hI.reaches id parent

/-! ## What a reader finds unchanged -/

/-- A copy is as it was, and the store is too, but for waiting writes that have been applied. -/
structure Untouched (h : Handle) (w₀ w : World) : Prop where
  given : w.session.Given h
  copy : w.session.copyOf h = w₀.session.copyOf h
  writing : w.session.writing = w₀.session.writing
  clock : w.clock = w₀.clock
  store : (w.store.Same w₀.store ∧ w.session.queue = w₀.session.queue) ∨
    (w.store.Same w₀.drained ∧ w.session.queue = [])

theorem applyJob_same {s t : Store} (hst : s.Same t) (job : Job) :
    (applyJob s job).Same (applyJob t job) :=
  (hst.update job.id job.update).2

/-- Induction on the waiting writes. -/
theorem applyJobs_same {s t : Store} (hst : s.Same t) (jobs : List Job) :
    (jobs.foldl applyJob s).Same (jobs.foldl applyJob t) := by
  induction jobs generalizing s t with
  | nil => exact hst
  | cons job jobs ih => exact ih (applyJob_same hst job)

namespace Untouched

variable {h : Handle} {w₀ : World}

theorem refl (hgiven : w₀.session.Given h) : Untouched h w₀ w₀ :=
  ⟨hgiven, rfl, rfl, rfl, .inl ⟨.refl _, rfl⟩⟩

/-- A new copy leaves the others as they are. -/
theorem adopt (record : Record) : Keeps (Untouched h w₀) (adopt record) := by
  refine .bind (Q := fun _ => Untouched h w₀) (fun _ hw => hw) fun found => ?_
  cases found with
  | some g => exact .pure _ fun _ hw => hw
  | none =>
    intro w hw
    have hsize : (w.session.adopting record).copies.size = w.session.copies.size + 1 :=
      Array.size_push ..
    refine ⟨?_, (Session.copyOf_adopting hw.given record).trans hw.copy, hw.writing, hw.clock,
      hw.store⟩
    have hgiven : h.index < w.session.copies.size := hw.given
    show h.index < (w.session.adopting record).copies.size
    omega

theorem unread (h : Handle) (w₀ : World) : Unread (Untouched h w₀) where
  settle := by
    intro w hw
    refine ⟨hw.given, hw.copy, hw.writing, hw.clock, .inr ⟨?_, rfl⟩⟩
    show (w.session.queue.foldl applyJob w.store).Same w₀.drained
    rcases hw.store with ⟨hstore, hqueue⟩ | ⟨hstore, hqueue⟩
    · rw [hqueue]
      exact applyJobs_same hstore _
    · rw [hqueue]
      exact hstore
  fetch := by
    intro id w hw
    have hsame := Store.fetch_same id w.store
    have hw' : Untouched h w₀ { w with store := (Store.fetch id w.store).2 } := by
      refine ⟨hw.given, hw.copy, hw.writing, hw.clock, ?_⟩
      rcases hw.store with ⟨hstore, hqueue⟩ | ⟨hstore, hqueue⟩
      · exact .inl ⟨hsame.trans hstore, hqueue⟩
      · exact .inr ⟨hsame.trans hstore, hqueue⟩
    rw [access_run]
    cases (Store.fetch id w.store).1 <;> exact hw'
  adopt := adopt

end Untouched

end Lineage.World
