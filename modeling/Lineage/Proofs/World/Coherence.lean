/-
  Lineage.Proofs.World.Coherence

  No operation makes the compiled methods of a session wrong.

  A world is coherent when its session is valid and its store is faithful
  (`World.Coherent`).  Every operation keeps it coherent, also when it fails, and
  whatever handle it is given; only a handle that is refreshed has to name a copy.
  Faithfulness is needed where a record that was asked for by one id becomes resident
  under its own.
-/
import Lineage.Proofs.Store.Faithful
import Lineage.Proofs.World.Logic
import Lineage.Proofs.World.Sessions

namespace Lineage

/-- What is kept of methods is right, and so is what is stored under ids. -/
structure World.Coherent (w : World) : Prop where
  session : w.session.Valid
  store : w.store.Faithful

namespace World

/-! ## The parts of a world -/

theorem onSession_keeps {f : Session → Session}
    (hf : ∀ s : Session, s.Valid → (f s).Valid) : Keeps Coherent (onSession f) :=
  fun w hw => ⟨hf w.session hw.session, hw.store⟩

/-- What is known of a store operation is known of it as part of a world. -/
theorem access_attempts {α : Type} {op : StoreOp Store α} {P E : World → Prop}
    {Q : α → World → Prop}
    (hok : ∀ w a, P w → (op w.store).1 = .ok a → Q a { w with store := (op w.store).2 })
    (herror : ∀ w, P w → E { w with store := (op w.store).2 }) : Attempts P (access op) Q E := by
  intro w hw
  rw [access_run]
  cases hr : (op w.store).1 with
  | ok a => exact hok w a hw hr
  | error e => exact herror w hw

theorem onStore_keeps {α : Type} {op : StoreOp Store α} (hop : ∀ s, Store.Edit s (op s).2) :
    Keeps Coherent (onStore op) :=
  fun w hw => ⟨hw.session, (hop w.store).faithful hw.store⟩

theorem access_guards {α : Type} {op : StoreOp Store α} (hop : ∀ s, Store.Edit s (op s).2) :
    Guards Coherent (access op) :=
  access_attempts (fun w _ hw _ => ⟨hw.session, (hop w.store).faithful hw.store⟩)
    fun w hw => ⟨hw.session, (hop w.store).faithful hw.store⟩

section

variable {P : World → Prop}

theorem recordOf_holds (h : Handle) : Holds P (recordOf h) fun record w =>
    record = (w.session.copyOf h).record ∧ P w :=
  fun _ hw => ⟨rfl, hw⟩

theorem copy_holds (h : Handle) : Holds P (copy h) fun c w => c = w.session.copyOf h ∧ P w :=
  fun _ hw => ⟨rfl, hw⟩

theorem cached_holds (id : ObjectId) : Holds P (cached id) fun found w =>
    w.session.resident.get? id = found ∧ P w :=
  fun _ hw => ⟨rfl, hw⟩

end

/-- Reading the record of a copy. -/
theorem recordOf_keeps {P : World → Prop} (h : Handle) : Keeps P (recordOf h) := fun _ hw => hw

/-- A change to a copy that leaves its id and its methods alone. -/
theorem onCopy_keeps (h : Handle) {f : Copy → Copy} (hid : ∀ c, (f c).record.id = c.record.id)
    (hmethods : ∀ c, (f c).record.methods = c.record.methods) : Keeps Coherent (onCopy h f) :=
  onSession_keeps fun _ hs => hs.change h (hid _) fun name _ => by rw [hmethods]

theorem onRecord_keeps (h : Handle) {f : Record → Record} (hid : ∀ r, (f r).id = r.id)
    (hmethods : ∀ r, (f r).methods = r.methods) : Keeps Coherent (onRecord h f) :=
  onCopy_keeps h (fun _ => hid _) fun _ => hmethods _

theorem onDirty_keeps (h : Handle) (f : Dirty → Dirty) : Keeps Coherent (onDirty h f) :=
  onCopy_keeps h (fun _ => rfl) fun _ => rfl

/-! ## Waiting writes -/

theorem applyJob_faithful {s : Store} (hs : s.Faithful) (job : Job) : (applyJob s job).Faithful :=
  (Store.Edit.update s job.id job.update).faithful hs

theorem applyJobs_faithful {s : Store} (hs : s.Faithful) (jobs : List Job) :
    (jobs.foldl applyJob s).Faithful := by
  induction jobs generalizing s with
  | nil => exact hs
  | cons job jobs ih => exact ih (applyJob_faithful hs job)

theorem settle_keeps : Keeps Coherent settle :=
  fun w hw => ⟨hw.session.irrelevant _ _ _, applyJobs_faithful hw.store w.session.queue⟩

theorem writeNow_keeps (id : ObjectId) (u : Update) : Keeps Coherent (writeNow id u) := by
  refine .bind .get fun w => ?_
  by_cases hwriting : w.session.writing = true
  · simp only [hwriting, if_true]
    refine .weaken ?_ fun _ hw => hw.2
    exact .bind settle_keeps fun _ => onStore_keeps fun s => .update s id u
  · simp only [hwriting, Bool.false_eq_true, if_false]
    exact .pure _ fun _ hw => hw.2

theorem writeLater_keeps (id : ObjectId) (u : Update) : Keeps Coherent (writeLater id u) := by
  refine onSession_keeps fun s hs => ?_
  split
  · exact hs.irrelevant _ _ _
  · exact hs

theorem stopWriting_keeps : Keeps Coherent stopWriting :=
  .bind settle_keeps fun _ => onSession_keeps fun _ hs => hs.irrelevant _ _ _

/-! ## Residents -/

theorem invalidate_keeps (id : ObjectId) : Keeps Coherent (invalidate id) :=
  onSession_keeps fun _ hs => hs.dropping id

theorem adopt_eq (record : Record) (w : World) : adopt record w =
    (match w.session.resident.get? record.id with
      | some h => pure h
      | none => keep record : StateM World Handle) w := rfl

theorem adopt_resident {w : World} {record : Record} {h : Handle}
    (hres : w.session.resident.get? record.id = some h) : adopt record w = (h, w) := by
  rw [adopt_eq, hres]
  rfl

theorem adopt_absent {w : World} {record : Record}
    (habsent : w.session.resident.get? record.id = none) : adopt record w =
      (⟨w.session.copies.size⟩, { w with session := w.session.adopting record }) := by
  rw [adopt_eq, habsent]
  rfl

/-- A record that is adopted is resident afterwards. -/
theorem adopt_holds (record : Record) : Holds Coherent (adopt record) fun h w =>
    w.Coherent ∧ w.session.resident.get? record.id = some h := by
  intro w hw
  cases hres : w.session.resident.get? record.id with
  | some h =>
    rw [adopt_resident hres]
    exact ⟨hw, hres⟩
  | none =>
    rw [adopt_absent hres]
    exact ⟨⟨hw.session.adopting hres, hw.store⟩, Dict.get?_put_self _ _ _⟩

theorem adopt_keeps (record : Record) : Keeps Coherent (adopt record) :=
  (adopt_holds record).mono fun _ _ h => h.1

section

variable {F : Session → Prop} (hF : ∀ s, F s → F { s with queue := [] })
include hF

/-- What is fetched has the id that was asked for.  Nothing that does not depend on the waiting
writes is changed. -/
theorem fetch_attempts (id : ObjectId) :
    Attempts (fun w => w.Coherent ∧ F w.session) (fetch id)
      (fun found w => (w.Coherent ∧ F w.session) ∧ ∀ record, found = some record → record.id = id)
      fun w => w.Coherent ∧ F w.session := by
  have hsettle : Keeps (fun w => w.Coherent ∧ F w.session) settle :=
    fun w hw => ⟨settle_keeps w hw.1, hF _ hw.2⟩
  refine .bind (.lift hsettle) fun _ => access_attempts (fun w found hw hfound => ⟨⟨?_, hw.2⟩, ?_⟩)
    fun w hw => ⟨?_, hw.2⟩
  · exact ⟨hw.1.session, (Store.Edit.fetch w.store id).faithful hw.1.store⟩
  · rintro record rfl
    exact Store.fetch_id hw.1.store hfound
  · exact ⟨hw.1.session, (Store.Edit.fetch w.store id).faithful hw.1.store⟩

end

theorem fetch_guards (id : ObjectId) : Attempts Coherent (fetch id)
    (fun found w => w.Coherent ∧ ∀ record, found = some record → record.id = id) Coherent := by
  intro w hw
  have h := @fetch_attempts (fun _ => True) (fun _ _ => trivial) id w ⟨hw, trivial⟩
  rcases hr : (fetch id).run w with ⟨e | found, w₁⟩
  · rw [hr] at h
    exact h.1
  · rw [hr] at h
    exact ⟨h.1.1, h.2⟩

/-- An object that is loaded is resident afterwards. -/
theorem loadWith_attempts (recycledToo : Bool) (id : ObjectId) :
    Attempts Coherent (loadWith recycledToo id)
      (fun found w => w.Coherent ∧ ∀ h, found = some h → w.session.resident.get? id = some h)
      Coherent := by
  have hpick (h : Handle) : Attempts
      (fun w => w.session.resident.get? id = some h ∧ w.Coherent)
      (do if (← recordOf h).recycled && !recycledToo then return none else return some h : Action _)
      (fun found w => w.Coherent ∧ ∀ h, found = some h → w.session.resident.get? id = some h)
      Coherent := by
    refine .bind (.lift (recordOf_keeps h)) fun record => ?_
    split
    · exact .pure _ fun w hw => ⟨hw.2, fun _ h => nomatch h⟩
    · refine .pure _ fun w hw => ⟨hw.2, fun g hg => ?_⟩
      cases hg
      exact hw.1
  refine .bind (.lift (cached_holds id)) fun found => ?_
  cases found with
  | some h => exact hpick h
  | none =>
    refine .bind ((fetch_guards id).weaken fun w hw => hw.2) fun found => ?_
    cases found with
    | none => exact .pure _ fun w hw => ⟨hw.1, fun _ h => nomatch h⟩
    | some record =>
      by_cases hskip : (record.recycled && !recycledToo) = true
      · simp only [hskip, if_true]
        exact .pure _ fun w hw => ⟨hw.1, fun _ h => nomatch h⟩
      · simp only [hskip]
        refine .bind (.lift ?_) hpick
        intro w hw
        have hadopt := adopt_holds record w hw.1
        rw [hw.2 record rfl] at hadopt
        exact ⟨hadopt.2, hadopt.1⟩

theorem loadWith_guards (recycledToo : Bool) (id : ObjectId) :
    Guards Coherent (loadWith recycledToo id) :=
  (loadWith_attempts recycledToo id).mono fun _ _ h => h.1

theorem load_guards (id : ObjectId) : Guards Coherent (load id) := loadWith_guards false id

theorem object_guards (id : ObjectId) : Guards Coherent (object id) := by
  refine .bind (load_guards id) fun found => ?_
  cases found with
  | some h => exact .pure _ fun _ hw => hw
  | none => exact .throw _ fun _ hw => hw

theorem create_guards (parent : ObjectId) (properties : OrderedDict String Value)
    (methods : OrderedDict String MethodDef) :
    Guards Coherent (create parent properties methods) := by
  refine .bind .get fun _ => .weaken (.bind (.lift settle_keeps) fun _ => ?_) fun _ hw => hw.2
  exact .bind (access_guards fun s => .create s _) fun id => .lift (adopt_keeps _)

theorem adoptAll_keeps (recycledToo : Bool) (records : List Record) :
    Keeps Coherent (adoptAll recycledToo records) := by
  induction records with
  | nil => exact .pure _ fun _ hw => hw
  | cons record rest ih =>
    exact .bind (adopt_keeps record) fun h => .bind (recordOf_keeps h) fun _ =>
      .bind ih fun _ => .pure _ fun _ hw => hw

theorem list_guards (recycledToo : Bool) : Guards Coherent (list recycledToo) :=
  .bind (.lift settle_keeps) fun _ => .bind (access_guards fun s => .list s recycledToo) fun _ =>
    .lift (adoptAll_keeps recycledToo _)

/-! ## Inheritance -/

theorem climb_guards {α : Type} (probe : Record → Option α) (fuel : Nat) (visited : List ObjectId)
    (h : Handle) : Guards Coherent (climb probe fuel visited h) := by
  induction fuel generalizing visited h with
  | zero => exact .pure _ fun _ hw => hw
  | succ fuel ih =>
    refine .bind (.lift (recordOf_keeps h)) fun record => ?_
    split
    · exact .pure _ fun _ hw => hw
    · split
      · exact .pure _ fun _ hw => hw
      · split
        · exact .pure _ fun _ hw => hw
        · refine .bind (loadWith_guards true record.parent) fun found => ?_
          cases found with
          | some ancestor => exact ih _ ancestor
          | none => exact .pure _ fun _ hw => hw

theorem resolve_guards {α : Type} (h : Handle) (probe : Record → Option α) :
    Guards Coherent (resolve h probe) :=
  .bind .get fun _ => .weaken (climb_guards probe _ [] h) fun _ hw => hw.2

/-! ## Changes -/

theorem setProperty_keeps (h : Handle) (name : String) (v : Value) :
    Keeps Coherent (setProperty h name v) :=
  .bind (onRecord_keeps h (fun _ => rfl) fun _ => rfl) fun _ => onDirty_keeps h _

theorem removeProperty_keeps (h : Handle) (name : String) :
    Keeps Coherent (removeProperty h name) := by
  refine .bind (recordOf_keeps h) fun record => ?_
  split
  · exact .bind (onRecord_keeps h (fun _ => rfl) fun _ => rfl) fun _ =>
      .bind (onDirty_keeps h _) fun _ => .pure _ fun _ hw => hw
  · exact .pure _ fun _ hw => hw

/-- The copy after a method of it has been changed. -/
def withMethods (f : OrderedDict String MethodDef → OrderedDict String MethodDef) (c : Copy) :
    Copy :=
  { c with record := { c.record with methods := f c.record.methods } }

/-- The copy after a method of it has been marked as changed. -/
def markMethod (name : String) (c : Copy) : Copy :=
  { c with dirty := { c.dirty with methods := c.dirty.methods.add name } }

/-- A method of a copy is changed, and then it is forgotten what it was compiled to. -/
theorem changeMethod_keeps (h : Handle) (name : String)
    {f : OrderedDict String MethodDef → OrderedDict String MethodDef}
    (hf : ∀ methods other, other ≠ name → (f methods).get? other = methods.get? other)
    {w : World} (hw : w.Coherent) {definer : ObjectId}
    (hdefiner : definer = (w.session.copyOf h).record.id) :
    World.Coherent { w with session :=
      ((w.session.change h (withMethods f)).change h (markMethod name)).forgetting definer name } := by
  refine ⟨?_, hw.store⟩
  show (((w.session.change h (withMethods f)).change h (markMethod name)).forgetting
    definer name).Valid
  -- It is forgotten last what the method was compiled to, but it might as well be forgotten first.
  rw [Session.forgetting_change, Session.forgetting_change]
  refine ((hw.session.forgetting definer name).change h rfl fun other hkept => ?_).change h rfl
    fun _ _ => rfl
  rw [Session.kept_forgetting hw.session, Session.copyOf_forgetting] at hkept
  have hne : other ≠ name := by
    rintro rfl
    apply hkept
    rw [if_pos ⟨hdefiner.symm, rfl⟩]
  exact hf _ other hne

theorem setMethod_keeps (h : Handle) (name : String) (m : MethodDef) :
    Keeps Coherent (setMethod h name m) := by
  intro w hw
  let s := (w.session.change h (withMethods fun methods => methods.put name m)).change h
    (markMethod name)
  have hrun : (setMethod h name m w).2 =
      { w with session := s.forgetting (s.copyOf h).record.id name } := rfl
  have hid : (s.copyOf h).record.id = (w.session.copyOf h).record.id := by
    have hmarked := Session.copyOf_change_id
      (s := w.session.change h (withMethods fun methods => methods.put name m))
      (f := markMethod name) (fun _ => rfl) h
    have hput := Session.copyOf_change_id (s := w.session)
      (f := withMethods fun methods => methods.put name m) (fun _ => rfl) h
    exact hmarked.trans hput
  show World.Coherent (setMethod h name m w).2
  rw [hrun]
  exact changeMethod_keeps h name (fun methods _ hne => methods.get?_put_ne m hne) hw hid

theorem removeMethod_keeps (h : Handle) (name : String) :
    Keeps Coherent (removeMethod h name) := by
  refine .bind (recordOf_holds h) fun record => ?_
  split
  · intro w hw
    have hrest := changeMethod_keeps h name (f := fun methods => methods.remove name)
      (fun methods _ hne => methods.get?_remove_ne hne) hw.2 (congrArg Record.id hw.1)
    exact hrest
  · exact .pure _ fun _ hw => hw.2

/-! ## Saving -/

theorem takeUpdate_keeps (h : Handle) : Keeps Coherent (takeUpdate h) := by
  refine .bind (copy_holds h) fun c => ?_
  split
  · exact .pure _ fun _ hw => hw.2
  · refine .bind .get fun w => .bind (.weaken ?_ fun _ hw => hw.2.2) fun _ => .pure _ fun _ hw => hw
    exact onCopy_keeps h (fun _ => rfl) fun _ => rfl

theorem save_guards (h : Handle) : Guards Coherent (save h) := by
  refine .bind (.lift (copy_holds h)) fun c => .weaken ?_ fun _ hw => hw.2
  refine .bind (.lift (takeUpdate_keeps h)) fun taken => ?_
  cases taken with
  | none => exact .pure _ fun _ hw => hw
  | some u =>
    refine .bind (.lift (writeNow_keeps c.record.id u)) fun r => ?_
    cases r with
    | ok _ => exact .pure _ fun _ hw => hw
    | error e => exact .bind (.lift (onDirty_keeps h _)) fun _ => .throw _ fun _ hw => hw

theorem saveLater_keeps (h : Handle) : Keeps Coherent (saveLater h) := by
  refine .bind (takeUpdate_keeps h) fun taken => ?_
  cases taken with
  | none => exact .pure _ fun _ hw => hw
  | some u => exact .bind (recordOf_keeps h) fun record => writeLater_keeps record.id u

/-- A handle that is refreshed has to name a copy. -/
theorem refresh_guards (h : Handle) :
    Attempts (fun w => w.Coherent ∧ w.session.Given h) (refresh h) (fun _ => Coherent)
      Coherent := by
  refine .bind (.lift (recordOf_holds h)) fun record => ?_
  -- Between the read and the replacement no copy is resident for the object.
  let Absent (s : Session) : Prop :=
    s.Given h ∧ (s.copyOf h).record.id = record.id ∧ s.resident.get? record.id = none
  refine .bind (Q := fun _ w => w.Coherent ∧ Absent w.session) (.lift ?_) fun _ => ?_
  · rintro w ⟨hrecord, hw, hgiven⟩
    refine ⟨invalidate_keeps _ w hw, hgiven, (congrArg Record.id hrecord).symm, ?_⟩
    exact (Session.resident_dropping hw.session _ _).trans (if_pos rfl)
  · refine .bind ((fetch_attempts (F := Absent) (fun _ hs => hs) record.id).fails
      fun _ hw => hw.1) fun found => ?_
    cases found with
    | none => exact .throw _ fun _ hw => hw.1.1
    | some stored =>
      rintro w ⟨⟨hw, hgiven, hid, habsent⟩, hstored⟩
      have hsame : stored.id = record.id := hstored stored rfl
      refine ⟨hw.session.replacing hgiven (hid.trans hsame.symm) ?_, hw.store⟩
      rw [hsame]
      exact habsent

/-! ## Parents and recycling -/

theorem reaches_guards (h : Handle) (id : ObjectId) : Guards Coherent (reaches h id) :=
  .bind (resolve_guards h _) fun _ => .pure _ fun _ hw => hw

theorem setParent_guards (h : Handle) (parent : ObjectId) :
    Guards Coherent (setParent h parent) := by
  have hset : Guards Coherent (do
      onRecord h fun r => { r with parent }
      onDirty h fun d => { d with header := true }
      let _ ← save h : Action Unit) :=
    .bind (.lift (onRecord_keeps h (fun _ => rfl) fun _ => rfl)) fun _ =>
      .bind (.lift (onDirty_keeps h _)) fun _ => .bind (save_guards h) fun _ => .pure _ fun _ hw => hw
  refine .bind (.lift (recordOf_keeps h)) fun record => ?_
  dsimp only
  by_cases hself : parent = record.id
  · rw [if_pos hself]
    exact .thrown _ fun _ hw => hw
  · rw [if_neg hself]
    by_cases hparent : parent ≠ .nothing
    · rw [if_pos hparent]
      refine .bind (loadWith_guards true parent) fun found => ?_
      cases found with
      | none => exact hset
      | some ancestor =>
        refine .bind (reaches_guards ancestor record.id) fun cyclic => ?_
        cases cyclic with
        | true => exact .thrown _ fun _ hw => hw
        | false => exact hset
    · rw [if_neg hparent]
      exact hset

theorem recycle_guards (id : ObjectId) : Guards Coherent (recycle id) :=
  .bind (object_guards id) fun h =>
    .bind (.lift (onRecord_keeps h (fun _ => rfl) fun _ => rfl)) fun _ =>
    .bind (.lift (onDirty_keeps h _)) fun _ => .bind (save_guards h) fun _ =>
    .lift (invalidate_keeps id)

theorem shutdown_guards : Guards Coherent shutdown :=
  .bind (.lift stopWriting_keeps) fun _ => access_guards fun s => .disconnect s

end World

end Lineage
