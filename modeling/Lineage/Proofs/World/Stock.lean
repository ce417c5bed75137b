/-
  Lineage.Proofs.World.Stock

  The methods that there are in a world.

  Methods are stored, wait to be written, or are owned by a copy in memory; some are kept
  compiled.  No script brings in a method of its own but by setting it: whatever all
  methods of a world are like, they stay so (`served_stocked`), and so do the programs
  that are made of them.  The settings of a session never change.
-/
import Lineage.Proofs.Store.Methods
import Lineage.Proofs.World.Scripts

namespace Lineage

-- Nothing here depends on what the compiler makes of a source.
attribute [local irreducible] Program.compile

/-- What methods and compiled programs are like under some settings. -/
structure Stock where
  runtime : RuntimeSettings
  methods : MethodDef → Prop
  programs : Program → Prop
  compiles : ∀ m p, methods m → Program.compile m.source runtime.customErrors = .ok p → programs p

/-- Whatever there is. -/
def Stock.any (runtime : RuntimeSettings) : Stock :=
  ⟨runtime, fun _ => True, fun _ => True, fun _ _ _ _ => trivial⟩

/-- Every method in a world: of a copy in memory, waiting to be written, or stored. -/
structure World.AllMethods (G : MethodDef → Prop) (w : World) : Prop where
  copies : ∀ h, (w.session.copyOf h).record.AllMethods G
  queue : ∀ job ∈ w.session.queue, job.update.AllMethods G
  store : w.store.AllMethods G

/-- All that there is in a world is as it should be. -/
structure World.Stocked (S : Stock) (w : World) : Prop extends w.AllMethods S.methods where
  runtime : w.session.runtime = S.runtime
  compiled : ∀ e ∈ w.session.compiled, ∀ x ∈ e.2, S.programs x.2

namespace World

variable {S : Stock}

/-- What is kept compiled is as it should be. -/
theorem Stocked.kept {w : World} (hw : w.Stocked S) {definer : ObjectId} {name : String} {p : Program}
    (h : keptProgram w.session definer name = some p) : S.programs p := by
  obtain ⟨programs, hprograms, hp⟩ := Option.bind_eq_some_iff.mp h
  exact hw.compiled _ (Dict.mem_of_get? hprograms) _ (Dict.mem_of_get? hp)

/-- Every world holds whatever there is. -/
theorem stocked_any (w : World) : w.Stocked (.any w.session.runtime) where
  runtime := rfl
  copies _ _ _ := trivial
  queue _ _ _ _ _ := trivial
  compiled _ _ _ _ := trivial
  store := by
    cases w.store with
    | memory s => exact fun _ _ _ _ => trivial
    | durable s => exact fun _ _ _ _ => trivial

/-! ## The parts of a world -/

/-- A copy may be changed as long as its methods stay as they should be. -/
theorem Stocked.change {w : World} (hw : w.Stocked S) (h : Handle) {f : Copy → Copy}
    (hf : ∀ c : Copy, c.record.AllMethods S.methods → (f c).record.AllMethods S.methods) :
    Stocked S { w with session := w.session.change h f } where
  runtime := hw.runtime
  copies g := by
    by_cases hgiven : w.session.Given g
    · by_cases hg : g = h
      · subst hg
        rw [Session.copyOf_change_self hgiven]
        exact hf _ (hw.copies g)
      · rw [Session.copyOf_change_ne hg]
        exact hw.copies g
    · -- A handle that names no copy stands for a record without methods.
      have hnone : (w.session.change h f).copies[g.index]? = none :=
        Array.getElem?_eq_none (Nat.le_of_not_lt fun hg => hgiven ((Session.given_change f).mp hg))
      rw [Session.copyOf, Array.getD_eq_getD_getElem?, hnone]
      intro e he
      cases he
  queue := hw.queue
  compiled := hw.compiled
  store := hw.store

theorem onCopy_stocked (h : Handle) {f : Copy → Copy}
    (hf : ∀ c : Copy, c.record.AllMethods S.methods → (f c).record.AllMethods S.methods) :
    Keeps (Stocked S) (onCopy h f) := fun _ hw => hw.change h hf

theorem onRecord_stocked (h : Handle) {f : Record → Record} (hf : ∀ r, (f r).methods = r.methods) :
    Keeps (Stocked S) (onRecord h f) :=
  onCopy_stocked h fun c hc => by
    rw [Record.AllMethods, hf]
    exact hc

theorem onDirty_stocked (h : Handle) (f : Dirty → Dirty) : Keeps (Stocked S) (onDirty h f) :=
  onCopy_stocked h fun _ hc => hc

theorem Stocked.inStore {w : World} (hw : w.Stocked S) {s : Store} (hs : s.AllMethods S.methods) :
    Stocked S { w with store := s } :=
  ⟨⟨hw.copies, hw.queue, hs⟩, hw.runtime, hw.compiled⟩

theorem applyJobs_stocked {jobs : List Job} (hjobs : ∀ job ∈ jobs, job.update.AllMethods S.methods)
    {s : Store} (hs : s.AllMethods S.methods) : (jobs.foldl applyJob s).AllMethods S.methods := by
  induction jobs generalizing s with
  | nil => exact hs
  | cons job jobs ih =>
    exact ih (fun other hother => hjobs other (List.mem_cons_of_mem _ hother))
      (hs.update job.id (hjobs job List.mem_cons_self))

theorem settle_stocked : Keeps (Stocked S) settle := fun _ hw =>
  ⟨⟨hw.copies, nofun, applyJobs_stocked hw.queue hw.store⟩, hw.runtime, hw.compiled⟩

theorem writeNow_stocked (id : ObjectId) {u : Update} (hu : u.AllMethods S.methods) :
    Keeps (Stocked S) (writeNow id u) := by
  refine .bind .get fun w => ?_
  by_cases hwriting : w.session.writing = true
  · simp only [hwriting, if_true]
    refine .weaken ?_ fun _ hw => hw.2
    exact .bind settle_stocked fun _ => fun w hw => hw.inStore (hw.store.update id hu)
  · simp only [hwriting, Bool.false_eq_true, if_false]
    exact .pure _ fun _ hw => hw.2

theorem writeLater_stocked (id : ObjectId) {u : Update} (hu : u.AllMethods S.methods) :
    Keeps (Stocked S) (writeLater id u) := by
  intro w hw
  show Stocked S { w with session := if w.session.writing then _ else _ }
  split
  · refine ⟨⟨hw.copies, fun job hjob => ?_, hw.store⟩, hw.runtime, hw.compiled⟩
    rcases List.mem_append.mp hjob with hjob | hjob
    · exact hw.queue job hjob
    · obtain rfl := List.mem_singleton.mp hjob
      exact hu
  · exact hw

/-! ## Residents -/

theorem invalidate_stocked (id : ObjectId) : Keeps (Stocked S) (invalidate id) := fun _ hw =>
  ⟨⟨hw.copies, hw.queue, hw.store⟩, hw.runtime, fun e he => hw.compiled e (Dict.mem_remove he)⟩

theorem adopt_stocked {record : Record} (hrecord : record.AllMethods S.methods) :
    Keeps (Stocked S) (adopt record) := by
  intro w hw
  cases hres : w.session.resident.get? record.id with
  | some h =>
    rw [adopt_resident hres]
    exact hw
  | none =>
    rw [adopt_absent hres]
    refine ⟨⟨fun h => ?_, hw.queue, hw.store⟩, hw.runtime, hw.compiled⟩
    rw [Session.copyOf, Session.adopting, Array.getD_eq_getD_getElem?, Array.getElem?_push]
    split
    · exact hrecord
    · rw [← Array.getD_eq_getD_getElem?]
      exact hw.copies h

/-- What is fetched is as it should be. -/
theorem fetch_stocked (id : ObjectId) : Attempts (Stocked S) (fetch id)
    (fun found w => (∀ r, found = some r → r.AllMethods S.methods) ∧ w.Stocked S) (Stocked S) := by
  refine .bind (.lift settle_stocked) fun _ => access_attempts (fun w found hw hfound => ⟨?_, ?_⟩)
    fun w hw => ?_
  · rintro r rfl
    exact hw.store.fetched hfound
  · exact hw.inStore ((Store.fetch_same id w.store).allMethods.mpr hw.store)
  · exact hw.inStore ((Store.fetch_same id w.store).allMethods.mpr hw.store)

theorem loadWith_stocked (recycledToo : Bool) (id : ObjectId) :
    Guards (Stocked S) (loadWith recycledToo id) := by
  have hpick (h : Handle) : Guards (Stocked S)
      (do if (← recordOf h).recycled && !recycledToo then return none else return some h : Action _) := by
    refine .bind (.lift (recordOf_keeps h)) fun record => ?_
    split
    · exact .pure _ fun _ hw => hw
    · exact .pure _ fun _ hw => hw
  refine .bind (.lift (cached_holds id)) fun found => .weaken ?_ fun _ hw => hw.2
  cases found with
  | some h => exact hpick h
  | none =>
    refine .bind (fetch_stocked id) fun found => ?_
    cases found with
    | none => exact .pure _ fun _ hw => hw.2
    | some record =>
      by_cases hskip : (record.recycled && !recycledToo) = true
      · simp only [hskip, if_true]
        exact .pure _ fun _ hw => hw.2
      · simp only [hskip]
        exact .bind (.lift fun w hw => adopt_stocked (hw.1 record rfl) w hw.2) hpick

theorem create_stocked (parent : ObjectId) (properties : OrderedDict String Value) :
    Guards (Stocked S) (create parent properties {}) := by
  refine .bind .get fun _ => .weaken (.bind (.lift settle_stocked) fun _ => ?_) fun _ hw => hw.2
  refine .bind (Q := fun _ => Stocked S) (access_attempts (fun w _ hw _ => ?_) fun w hw => ?_)
    fun id => .lift (adopt_stocked nofun)
  · exact hw.inStore (hw.store.create nofun)
  · exact hw.inStore (hw.store.create nofun)

theorem adoptAll_stocked (recycledToo : Bool) {records : List Record}
    (hrecords : ∀ r ∈ records, r.AllMethods S.methods) :
    Keeps (Stocked S) (adoptAll recycledToo records) := by
  induction records with
  | nil => exact .pure _ fun _ hw => hw
  | cons record rest ih =>
    exact .bind (adopt_stocked (hrecords record List.mem_cons_self)) fun h =>
      .bind (recordOf_keeps h) fun _ =>
      .bind (ih fun r hr => hrecords r (List.mem_cons_of_mem _ hr)) fun _ => .pure _ fun _ hw => hw

theorem list_stocked (recycledToo : Bool) : Guards (Stocked S) (list recycledToo) := by
  refine .bind (.lift settle_stocked) fun _ => .bind (Q := fun records w =>
    (∀ r ∈ records, r.AllMethods S.methods) ∧ w.Stocked S)
    (access_attempts (fun w records hw hrecords => ⟨hw.store.listed hrecords, ?_⟩) fun w hw => ?_)
    fun records => .lift fun w hw => adoptAll_stocked recycledToo hw.1 w hw.2
  · exact hw.inStore ((Store.list_same recycledToo w.store).allMethods.mpr hw.store)
  · exact hw.inStore ((Store.list_same recycledToo w.store).allMethods.mpr hw.store)

/-- Induction on the steps. -/
theorem climb_stocked {α : Type} (probe : Record → Option α) (fuel : Nat) (visited : List ObjectId)
    (h : Handle) : Guards (Stocked S) (climb probe fuel visited h) := by
  induction fuel generalizing visited h with
  | zero => exact .pure _ fun _ hw => hw
  | succ fuel ih =>
    refine .bind (.lift (recordOf_keeps h)) fun record => ?_
    split
    · exact .pure _ fun _ hw => hw
    · split
      · exact .pure _ fun _ hw => hw
      · split
        · exact .pure _ fun _ hw => hw
        · refine .bind (loadWith_stocked true record.parent) fun found => ?_
          cases found with
          | some ancestor => exact ih _ ancestor
          | none => exact .pure _ fun _ hw => hw

theorem resolve_stocked {α : Type} (h : Handle) (probe : Record → Option α) :
    Guards (Stocked S) (resolve h probe) :=
  .bind .get fun _ => .weaken (climb_stocked probe _ [] h) fun _ hw => hw.2

theorem keepProgram_stocked (definer : ObjectId) (name : String) {p : Program} (hp : S.programs p) :
    Keeps (Stocked S) (keepProgram definer name p) := by
  intro w hw
  refine ⟨⟨hw.copies, hw.queue, hw.store⟩, hw.runtime, fun e he x hx => ?_⟩
  rcases Dict.mem_put he with rfl | he
  · rcases Dict.mem_put hx with rfl | hx
    · exact hp
    · -- It joins what is kept of the other methods of its owner.
      cases hprograms : w.session.compiled.get? definer with
      | none =>
        rw [hprograms] at hx
        cases hx
      | some programs =>
        rw [hprograms] at hx
        exact hw.compiled _ (Dict.mem_of_get? hprograms) x hx
  · exact hw.compiled e he x hx

/-- The program of a method is as it should be, whether it was kept or is compiled now. -/
theorem compiledMethod_stocked (definer : ObjectId) (name : String) :
    Attempts (Stocked S) (compiledMethod definer name) (fun p w => S.programs p ∧ w.Stocked S)
      (Stocked S) := by
  refine .bind .get fun seen => ?_
  cases hkept : keptProgram seen.session definer name with
  | some p =>
    refine .pure _ fun w hw => ⟨?_, hw.2⟩
    obtain ⟨rfl, hw⟩ := hw
    exact hw.kept hkept
  | none =>
    refine .bind ((loadWith_stocked true definer).weaken fun _ hw => hw.2) fun found => ?_
    cases found with
    | none => exact .throw _ fun _ hw => hw
    | some h =>
      refine .bind (.lift (recordOf_holds h)) fun record => ?_
      cases hm : record.methods.get? name with
      | none => exact .throw _ fun _ hw => hw.2
      | some m =>
        refine .bind .get fun now => ?_
        cases hp : Program.compile m.source now.session.runtime.customErrors with
        | error e => exact .throw _ fun _ hw => hw.2.2
        | ok p =>
          refine .bind (.lift ?_) fun _ => .pure _ fun _ hw => hw
          rintro w ⟨rfl, rfl, hw⟩
          have hmethod : S.methods m := hw.copies h (name, m) (Dict.mem_of_get? hm)
          have hprogram : S.programs p := S.compiles m p hmethod (hw.runtime ▸ hp)
          exact ⟨hprogram, keepProgram_stocked definer name hprogram _ hw⟩

/-! ## Changes -/

theorem forgetCompiled_stocked (definer : ObjectId) (name : String) :
    Keeps (Stocked S) (forgetCompiled definer name) := by
  intro w hw
  show Stocked S { w with session := w.session.forgetting definer name }
  unfold Session.forgetting
  cases hprograms : w.session.compiled.get? definer with
  | none => exact hw
  | some programs =>
    refine ⟨⟨hw.copies, hw.queue, hw.store⟩, hw.runtime, fun e he x hx => ?_⟩
    rcases Dict.mem_put he with rfl | he
    · exact hw.compiled _ (Dict.mem_of_get? hprograms) x (Dict.mem_remove hx)
    · exact hw.compiled e he x hx

theorem setProperty_stocked (h : Handle) (name : String) (v : Value) :
    Keeps (Stocked S) (setProperty h name v) :=
  .bind (onRecord_stocked h fun _ => rfl) fun _ => onDirty_stocked h _

theorem setMethod_stocked (h : Handle) (name : String) {m : MethodDef} (hm : S.methods m) :
    Keeps (Stocked S) (setMethod h name m) := by
  refine .bind (onCopy_stocked h fun c hc e he => ?_) fun _ => .bind (onDirty_stocked h _) fun _ =>
    .bind (recordOf_keeps h) fun _ => forgetCompiled_stocked _ name
  rcases Dict.mem_put he with rfl | he
  · exact hm
  · exact hc e he

theorem removeMethod_stocked (h : Handle) (name : String) :
    Keeps (Stocked S) (removeMethod h name) := by
  refine .bind (recordOf_keeps h) fun record => ?_
  split
  · exact .bind (onCopy_stocked h fun c hc e he => hc e (Dict.mem_remove he)) fun _ =>
      .bind (onDirty_stocked h _) fun _ => .bind (forgetCompiled_stocked _ name) fun _ =>
      .pure _ fun _ hw => hw
  · exact .pure _ fun _ hw => hw

/-- What is taken to be written is as it should be. -/
theorem takeUpdate_stocked (h : Handle) : Holds (Stocked S) (takeUpdate h) fun taken w =>
    (∀ u, taken = some u → u.AllMethods S.methods) ∧ w.Stocked S := by
  refine .bind (copy_holds h) fun c => ?_
  split
  · exact .pure _ fun _ hw => ⟨nofun, hw.2⟩
  · refine .bind .get fun w => .bind (Q := fun _ w' => c.record.AllMethods S.methods ∧ w'.Stocked S)
      ?_ fun _ => .pure _ fun w' hw => ⟨?_, hw.2⟩
    · rintro w' ⟨-, rfl, hw⟩
      exact ⟨hw.copies h, onCopy_stocked h (f := fun c => c.written w.clock) (fun _ hc => hc) w' hw⟩
    · rintro u hu
      cases hu
      exact hw.1.update _

theorem save_stocked (h : Handle) : Guards (Stocked S) (save h) := by
  refine .bind (.lift (copy_holds h)) fun c => .weaken ?_ fun _ hw => hw.2
  refine .bind (.lift (takeUpdate_stocked h)) fun taken => ?_
  cases taken with
  | none => exact .pure _ fun _ hw => hw.2
  | some u =>
    refine .bind (Q := fun _ => Stocked S)
      (.lift fun w hw => writeNow_stocked c.record.id (hw.1 u rfl) w hw.2) fun r => ?_
    cases r with
    | ok _ => exact .pure _ fun _ hw => hw
    | error e => exact .bind (.lift (onDirty_stocked h _)) fun _ => .throw _ fun _ hw => hw

theorem saveLater_stocked (h : Handle) : Keeps (Stocked S) (saveLater h) := by
  refine .bind (takeUpdate_stocked h) fun taken => ?_
  cases taken with
  | none => exact .pure _ fun _ hw => hw.2
  | some u =>
    exact .bind (recordOf_keeps h) fun record => fun w hw =>
      writeLater_stocked record.id (hw.1 u rfl) w hw.2

theorem setParent_stocked (h : Handle) (parent : ObjectId) :
    Guards (Stocked S) (setParent h parent) := by
  have hset : Guards (Stocked S) (do
      onRecord h fun r => { r with parent }
      onDirty h fun d => { d with header := true }
      let _ ← save h : Action Unit) :=
    .bind (.lift (onRecord_stocked h fun _ => rfl)) fun _ => .bind (.lift (onDirty_stocked h _)) fun _ =>
      .bind (save_stocked h) fun _ => .pure _ fun _ hw => hw
  refine .bind (.lift (recordOf_keeps h)) fun record => ?_
  dsimp only
  by_cases hself : parent = record.id
  · rw [if_pos hself]
    exact .thrown _ fun _ hw => hw
  · rw [if_neg hself]
    by_cases hparent : parent ≠ .nothing
    · rw [if_pos hparent]
      refine .bind (loadWith_stocked true parent) fun found => ?_
      cases found with
      | none => exact hset
      | some ancestor =>
        refine .bind (Q := fun _ => Stocked S)
          (.bind (resolve_stocked ancestor _) fun _ => .pure _ fun _ hw => hw) fun cyclic => ?_
        cases cyclic with
        | true => exact .thrown _ fun _ hw => hw
        | false => exact hset
    · rw [if_neg hparent]
      exact hset

theorem recycle_stocked (id : ObjectId) : Guards (Stocked S) (recycle id) := by
  refine .bind (.bind (loadWith_stocked false id) fun found => ?_) fun h =>
    .bind (.lift (onRecord_stocked h fun _ => rfl)) fun _ => .bind (.lift (onDirty_stocked h _)) fun _ =>
    .bind (save_stocked h) fun _ => .lift (invalidate_stocked id)
  cases found with
  | some h => exact .pure _ fun _ hw => hw
  | none => exact .throw _ fun _ hw => hw

/-! ## What scripts leave -/

theorem draw_stocked (limit : Int64) : Keeps (Stocked S) (ScriptAction.draw limit) := by
  intro w hw
  unfold ScriptAction.draw
  dsimp only
  exact ⟨⟨hw.copies, hw.queue, hw.store⟩, hw.runtime, hw.compiled⟩

/-- Scripts that set no methods leave all that there is as it should be. -/
theorem served_stocked (S : Stock) : Served (Stocked S) where
  load := loadWith_stocked false
  list := list_stocked false
  resolve := resolve_stocked
  create := create_stocked
  compiledMethod definer name := (compiledMethod_stocked definer name).mono fun _ _ hw => hw.2
  setProperty := setProperty_stocked
  removeMethod := removeMethod_stocked
  setParent := setParent_stocked
  recycle := recycle_stocked
  save := save_stocked
  saveLater := saveLater_stocked
  draw := draw_stocked

/-- A step of a machine leaves the settings of the session alone. -/
theorem step_runtime (m : Machine) (w : World) :
    (m.step w).2.session.runtime = w.session.runtime :=
  (Machine.step_keeps (served_stocked (.any w.session.runtime))
    (fun h name _ => setMethod_stocked h name trivial) m w (stocked_any w)).runtime

end World

end Lineage
