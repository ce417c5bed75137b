/-
  Lineage.Proofs.World.Tracking

  What is marked as changed is what has been changed, and nothing else is written.

  A world shows a ledger (`Ledger.Shows`) when the handle's copy, its marks, the waiting
  writes and what is stored are what the ledger says.  Whatever happens is a step of the
  ledger (`Ledger.Shows.step`), and so, by induction, is every run (`Ledger.tracking_exact`).
-/
import Mathlib.Data.List.Forall2
import Lineage.Proofs.World.Ledger
import Lineage.Proofs.World.Reading

namespace Lineage.Ledger

open World (applyJob)

/-- A waiting write is that of a copy whose marks and record are what the ledger says. -/
structure Sends (durable : Bool) (id : ObjectId) (job : Job) (p : Patch) : Prop where
  id : job.id = id
  source : ∃ (c : Copy) (now : Timestamp), job.update = c.update now ∧
    p = ⟨c.dirty.Marks, (c.written now).record⟩ ∧ (durable = true → now.Valid)

/-- The world is as the ledger of a handle says. -/
structure Shows (L : Ledger) (h : Handle) (w : World) : Prop where
  given : w.session.Given h
  mine : (w.session.copyOf h).record = L.mine
  changed : ∀ p, (w.session.copyOf h).dirty.Marks p ↔ L.changed p
  waiting : List.Forall₂ (Sends w.store.isDurable L.mine.id) w.session.queue L.waiting
  stored : w.store.deposit L.mine.id = L.stored
  durable : w.store.isDurable = L.durable
  connected : w.store.isConnected = L.connected
  writing : w.session.writing = L.writing
  sound : w.store.Sound
  clock : w.store.isDurable = true → w.clock.Valid

/-! ## Waiting writes -/

theorem applied_cons {durable connected : Bool} {p : Patch} {rest : List Patch}
    {a b c : Option Deposit} (hp : Patch.Applied durable connected [p] a b)
    (hrest : Patch.Applied durable connected rest b c) :
    Patch.Applied durable connected (p :: rest) a c := by
  cases hp with
  | lands hconnected hwritten hnil =>
    cases hnil
    exact .lands hconnected hwritten hrest
  | fails hfails hnil =>
    cases hnil
    exact .fails hfails hrest

/-- A store after writes for one object. -/
structure After (s t : Store) (id : ObjectId) (ps : List Patch) : Prop where
  sound : t.Sound
  connected : t.isConnected = s.isConnected
  durable : t.isDurable = s.isDurable
  applied : Patch.Applied s.isDurable s.isConnected ps (s.deposit id) (t.deposit id)

/-- A write succeeds if the store is connected and holds the object.  Otherwise it changes nothing. -/
theorem Sends.outcome {s : Store} (hs : s.Sound) {id : ObjectId} {job : Job} {p : Patch}
    (hjob : Sends s.isDurable id job p) :
    (∃ old new, (Store.update job.id job.update s).1 = .ok () ∧ s.isConnected = true ∧
        s.deposit id = some old ∧ (applyJob s job).deposit id = some new ∧
        Written s.isDurable p.changed p.source old new) ∨
      (∃ e, (Store.update job.id job.update s).1 = .error e) ∧ applyJob s job = s ∧
        (s.isConnected = false ∨ s.deposit id = none) := by
  obtain ⟨c, now, hupdate, rfl, hnow⟩ := hjob.source
  unfold applyJob
  rw [hjob.id, hupdate]
  by_cases hc : s.isConnected = true
  · cases hd : s.deposit id with
    | none =>
      have hrun := Store.update_missing hs hc hd (c.update now)
      exact .inr ⟨⟨_, congrArg Prod.fst hrun⟩, congrArg Prod.snd hrun, .inr rfl⟩
    | some old =>
      obtain ⟨hok, new, hnew, hwritten⟩ := hs.update_written hc hd c hnow
      exact .inl ⟨old, new, hok, hc, rfl, hnew, hwritten⟩
  · have hc' := Bool.not_eq_true _ ▸ hc
    have hrun := Store.update_offline hc' id (c.update now)
    exact .inr ⟨⟨_, congrArg Prod.fst hrun⟩, congrArg Prod.snd hrun, .inl hc'⟩

theorem After.write {s : Store} (hs : s.Sound) {id : ObjectId} {job : Job} {p : Patch}
    (hjob : Sends s.isDurable id job p) : After s (applyJob s job) id [p] := by
  obtain ⟨c, now, hupdate, -, hnow⟩ := hjob.source
  have htimed : s.isDurable = true → job.update.Timed := by
    intro hd t ht
    rw [hupdate] at ht
    exact Option.some.inj ht ▸ hnow hd
  refine ⟨hs.update job.id htimed, Store.isConnected_update _ _ s, Store.isDurable_update _ _ s, ?_⟩
  rcases hjob.outcome hs with ⟨old, new, -, hc, hold, hnew, hwritten⟩ | ⟨-, hsame, hfails⟩
  · rw [hold, hnew]
    exact .lands hc hwritten (.nil _)
  · rw [hsame]
    exact .fails hfails (.nil _)

/-- Induction on the waiting writes. -/
theorem After.writes {s : Store} (hs : s.Sound) {id : ObjectId} {jobs : List Job} {ps : List Patch}
    (hjobs : List.Forall₂ (Sends s.isDurable id) jobs ps) :
    After s (jobs.foldl applyJob s) id ps := by
  induction jobs generalizing s ps with
  | nil =>
    cases hjobs
    exact ⟨hs, rfl, rfl, .nil _⟩
  | cons job jobs ih =>
    obtain _ | ⟨hjob, hjobs⟩ := hjobs
    have hfirst := After.write hs hjob
    have hrest := ih hfirst.sound (hfirst.durable ▸ hjobs)
    refine ⟨hrest.sound, hrest.connected.trans hfirst.connected,
      hrest.durable.trans hfirst.durable, applied_cons hfirst.applied ?_⟩
    rw [← hfirst.connected, ← hfirst.durable]
    exact hrest.applied

namespace Shows

variable {L : Ledger} {h : Handle} {w t : World}

/-- Another store that is the same for the ledger. -/
theorem restored (hL : L.Shows h w) (hgiven : t.session.Given h)
    (hcopy : t.session.copyOf h = w.session.copyOf h)
    (hwriting : t.session.writing = w.session.writing) (hclock : t.clock = w.clock)
    {stored : Option Deposit} {waiting : List Patch} (disturbed : Prop) (hsound : t.store.Sound)
    (hconnected : t.store.isConnected = w.store.isConnected)
    (hdurable : t.store.isDurable = w.store.isDurable)
    (hwaiting : List.Forall₂ (Sends w.store.isDurable L.mine.id) t.session.queue waiting)
    (hstored : t.store.deposit L.mine.id = stored) :
    Shows { L with stored, waiting, disturbed } h t where
  given := hgiven
  mine := hcopy ▸ hL.mine
  changed := hcopy ▸ hL.changed
  waiting := hdurable ▸ hwaiting
  stored := hstored
  durable := hdurable.trans hL.durable
  connected := hconnected.trans hL.connected
  writing := hwriting.trans hL.writing
  sound := hsound
  clock hd := hclock ▸ hL.clock (hdurable.symm.trans hd)

/-- The waiting writes are applied, and nothing else happens to the copy. -/
theorem settles (hL : L.Shows h w) (hgiven : t.session.Given h)
    (hcopy : t.session.copyOf h = w.session.copyOf h)
    (hwriting : t.session.writing = w.session.writing) (hclock : t.clock = w.clock)
    (hstore : t.store.Same w.drained) (hqueue : t.session.queue = []) :
    ∃ L', L.Settles L' ∧ L'.Shows h t := by
  have hafter := After.writes hL.sound hL.waiting
  have happlied := hafter.applied
  rw [hL.stored, hL.durable, hL.connected] at happlied
  refine ⟨_, ⟨_, happlied, rfl⟩, hL.restored hgiven hcopy hwriting hclock _
    (hstore.symm.sound hafter.sound) (hstore.isConnected.trans hafter.connected)
    (hstore.isDurable.trans hafter.durable) ?_ ?_⟩
  · rw [hqueue]
    exact .nil
  · rw [hstore.deposit]
    rfl

/-- Other objects are looked at. -/
theorem looks (hL : L.Shows h w) (hlook : World.Untouched h w t) :
    ∃ L', L.Looks L' ∧ L'.Shows h t := by
  rcases hlook.store with ⟨hstore, hqueue⟩ | ⟨hstore, hqueue⟩
  · refine ⟨L, .inl rfl, hL.restored hlook.given hlook.copy hlook.writing hlook.clock L.disturbed
      (hstore.symm.sound hL.sound) hstore.isConnected hstore.isDurable (hqueue ▸ hL.waiting) ?_⟩
    rw [hstore.deposit]
    exact hL.stored
  · obtain ⟨L', hsettles, hL'⟩ :=
      hL.settles hlook.given hlook.copy hlook.writing hlook.clock hstore hqueue
    exact ⟨L', .inr hsettles, hL'⟩

/-! ## Changes -/

/-- Worlds that differ in what is in memory alone. -/
structure Beside (w t : World) : Prop where
  store : t.store = w.store
  queue : t.session.queue = w.session.queue
  writing : t.session.writing = w.session.writing
  clock : t.clock = w.clock

/-- The copy is changed in memory. -/
theorem copied (hL : L.Shows h w) (ht : Beside w t) (hgiven : t.session.Given h)
    {r : Record} {changed : Path → Prop} (hr : (t.session.copyOf h).record = r)
    (hchanged : ∀ p, (t.session.copyOf h).dirty.Marks p ↔ changed p) (hid : r.id = L.mine.id) :
    Shows { L with mine := r, changed } h t where
  given := hgiven
  mine := hr
  changed := hchanged
  waiting := by
    rw [ht.store, ht.queue]
    show List.Forall₂ (Sends _ r.id) _ _
    rw [hid]
    exact hL.waiting
  stored := by
    rw [ht.store]
    show w.store.deposit r.id = L.stored
    rw [hid]
    exact hL.stored
  durable := ht.store ▸ hL.durable
  connected := ht.store ▸ hL.connected
  writing := ht.writing.trans hL.writing
  sound := ht.store ▸ hL.sound
  clock := by
    rw [ht.store, ht.clock]
    exact hL.clock

/-- A path of the copy is changed in memory and marked. -/
theorem edited (hL : L.Shows h w) (u : Update) {p : Path} {mark : Dirty → Dirty}
    (hmark : ∀ d q, (mark d).Marks q ↔ q = p ∨ d.Marks q) :
    (L.edited p (u.applyTo L.mine)).Shows h
      ((do World.onRecord h u.applyTo; World.onDirty h mark : StateM World Unit) w).2 := by
  let change (c : Copy) : Copy := { c with record := u.applyTo c.record }
  let marked (c : Copy) : Copy := { c with dirty := mark c.dirty }
  have hgiven : (w.session.change h change).Given h := (Session.given_change _).mpr hL.given
  have hcopy : ((w.session.change h change).change h marked).copyOf h =
      marked (change (w.session.copyOf h)) := by
    rw [Session.copyOf_change_self hgiven, Session.copyOf_change_self hL.given]
  refine hL.copied (t := { w with session := (w.session.change h change).change h marked })
    ⟨rfl, rfl, rfl, rfl⟩ ((Session.given_change _).mpr hgiven) ?_ (fun q => ?_) rfl
  · rw [hcopy, ← hL.mine]
  · rw [hcopy]
    exact (hmark _ q).trans (or_congr .rfl (hL.changed q))

/-- What methods are compiled to does not matter. -/
theorem forgetCompiled (hL : L.Shows h w) (definer : ObjectId) (name : String) :
    L.Shows h (World.forgetCompiled definer name w).2 := by
  have hcopy := Session.copyOf_forgetting w.session h definer name
  show L.Shows h { w with session := w.session.forgetting definer name }
  unfold Session.forgetting at hcopy ⊢
  cases hprograms : w.session.compiled.get? definer with
  | none => exact hL
  | some programs =>
    simp only [hprograms] at hcopy
    exact ⟨hL.given, hcopy ▸ hL.mine, hcopy ▸ hL.changed, hL.waiting, hL.stored, hL.durable,
      hL.connected, hL.writing, hL.sound, hL.clock⟩

theorem setProperty (hL : L.Shows h w) (name : String) (v : Value) :
    Shows (L.edited (.property name) { L.mine with properties := L.mine.properties.put name v }) h
      (World.setProperty h name v w).2 :=
  hL.edited { properties := [(name, some v)] } fun d => d.marks_addProperty name

theorem removeProperty (hL : L.Shows h w) {name : String} {was : Bool}
    (hrun : World.removeProperty h name w = (was, t)) :
    ∃ L', L.Step (.removeProperty name was) L' ∧ L'.Shows h t := by
  have hhas : L.mine.properties.has name = (w.session.copyOf h).record.properties.has name := by
    rw [hL.mine]
  have hif : World.removeProperty h name w =
      (if (w.session.copyOf h).record.properties.has name then (do
        World.onRecord h fun r => { r with properties := r.properties.remove name }
        World.onDirty h fun d => { d with properties := d.properties.add name }
        return true : StateM World Bool) else pure false) w := rfl
  rw [hif] at hrun
  cases hcase : (w.session.copyOf h).record.properties.has name with
  | true =>
    rw [if_pos hcase] at hrun
    obtain ⟨rfl, rfl⟩ := Prod.mk.inj hrun
    exact ⟨_, .removeProperty (hhas.trans hcase),
      hL.edited { properties := [(name, none)] } fun d => d.marks_addProperty name⟩
  | false =>
    rw [if_neg (Bool.eq_false_iff.mp hcase)] at hrun
    obtain ⟨rfl, rfl⟩ := Prod.mk.inj hrun
    exact ⟨L, .noProperty (hhas.trans hcase), hL⟩

theorem setMethod (hL : L.Shows h w) (name : String) (m : MethodDef) :
    Shows (L.edited (.method name) { L.mine with methods := L.mine.methods.put name m }) h
      (World.setMethod h name m w).2 :=
  (hL.edited { methods := [(name, some m)] } fun d => d.marks_addMethod name).forgetCompiled _ name

theorem removeMethod (hL : L.Shows h w) {name : String} {was : Bool}
    (hrun : World.removeMethod h name w = (was, t)) :
    ∃ L', L.Step (.removeMethod name was) L' ∧ L'.Shows h t := by
  have hhas : L.mine.methods.has name = (w.session.copyOf h).record.methods.has name := by
    rw [hL.mine]
  have hif : World.removeMethod h name w =
      (if (w.session.copyOf h).record.methods.has name then (do
        World.onRecord h fun r => { r with methods := r.methods.remove name }
        World.onDirty h fun d => { d with methods := d.methods.add name }
        World.forgetCompiled (w.session.copyOf h).record.id name
        return true : StateM World Bool) else pure false) w := rfl
  rw [hif] at hrun
  cases hcase : (w.session.copyOf h).record.methods.has name with
  | true =>
    rw [if_pos hcase] at hrun
    obtain ⟨rfl, rfl⟩ := Prod.mk.inj hrun
    exact ⟨_, .removeMethod (hhas.trans hcase), (hL.edited { methods := [(name, none)] }
      fun d => d.marks_addMethod name).forgetCompiled _ name⟩
  | false =>
    rw [if_neg (Bool.eq_false_iff.mp hcase)] at hrun
    obtain ⟨rfl, rfl⟩ := Prod.mk.inj hrun
    exact ⟨L, .noMethod (hhas.trans hcase), hL⟩

/-! ## Saving -/

theorem isClean_iff (hL : L.Shows h w) :
    (w.session.copyOf h).dirty.isClean = true ↔ ∀ p, ¬ L.changed p := by
  rw [Dirty.isClean_iff]
  exact forall_congr' fun p => not_congr (hL.changed p)

theorem exists_changed (hL : L.Shows h w) (hdirty : (w.session.copyOf h).dirty.isClean = false) :
    ∃ p, L.changed p := by
  refine Classical.byContradiction fun hnone => ?_
  rw [hL.isClean_iff.mpr fun p hp => hnone ⟨p, hp⟩] at hdirty
  cases hdirty

/-- What is written of the copy is what the ledger says. -/
theorem sends (hL : L.Shows h w) : Sends w.store.isDurable L.mine.id
    ⟨L.mine.id, (w.session.copyOf h).update w.clock⟩
    ⟨L.changed, (L.sent w.clock).mine⟩ where
  id := rfl
  source := by
    have hmarks : L.changed = (w.session.copyOf h).dirty.Marks :=
      funext fun p => propext (hL.changed p).symm
    refine ⟨w.session.copyOf h, w.clock, rfl, ?_, hL.clock⟩
    rw [hmarks, Copy.written, hL.mine]
    rfl

/-- The changes are sent: the copy is clean, and its time is now. -/
theorem sent (hL : L.Shows h w) : (L.sent w.clock).Shows h (w.sent h) := by
  have hcopy : (w.sent h).session.copyOf h = (w.session.copyOf h).written w.clock :=
    Session.copyOf_change_self hL.given _
  refine hL.copied (t := w.sent h) ⟨rfl, rfl, rfl, rfl⟩ ((Session.given_change _).mpr hL.given) ?_
    (fun p => ?_) rfl
  · rw [hcopy, Copy.written, hL.mine]
  · rw [hcopy]
    exact ⟨Dirty.not_marks_clean p, False.elim⟩

/-- The changes have not been written: their paths are marked as before. -/
theorem unsaved (hL : Shows { L with changed := fun _ => False } h w) {d : Dirty}
    (hd : ∀ p, d.Marks p ↔ L.changed p) : L.Shows h (w.unsaved h d) := by
  have hcopy : (w.unsaved h d).session.copyOf h = { w.session.copyOf h with
      dirty := (w.session.copyOf h).dirty.merge d } :=
    Session.copyOf_change_self hL.given _
  refine hL.copied (t := w.unsaved h d) ⟨rfl, rfl, rfl, rfl⟩
    ((Session.given_change _).mpr hL.given) ?_ (fun p => ?_) rfl
  · rw [hcopy]
    exact hL.mine
  · rw [hcopy, Dirty.marks_merge, hd p]
    exact ⟨fun hp => hp.elim (fun hmarks => ((hL.changed p).mp hmarks).elim) id, .inr⟩

theorem settled (hL : L.Shows h w) : ∃ L', L.Settles L' ∧ L'.Shows h w.settled :=
  hL.settles hL.given rfl rfl rfl (.refl _) rfl

/-- The changes are written after what waits. -/
theorem saves_writing (hL : L.Shows h w) (hchanged : ∃ p, L.changed p)
    (hwriting : w.session.writing = true) {result : Except StoreError Unit}
    (hrun : World.writeNow L.mine.id ((w.session.copyOf h).update w.clock) (w.sent h) =
      (result, t)) : match result with
    | .ok _ => ∃ L', L.Saves (.ok true) L' ∧ L'.Shows h t
    | .error e => ∃ L', L.Saves (.error (.persistence e)) L' ∧
        L'.Shows h (t.unsaved h (w.session.copyOf h).dirty) := by
  obtain ⟨L₀, ⟨stored, happlied, rfl⟩, hL₀⟩ := hL.sent.settled
  have hsettles : L.Settles (L.drained stored) := ⟨stored, happlied, rfl⟩
  have hdurable : (w.sent h).drained.isDurable = w.store.isDurable :=
    (After.writes hL.sound hL.waiting).durable
  have hjob := hdurable.symm ▸ hL.sends
  have hafter := After.write hL₀.sound hjob
  have hstored : (w.sent h).drained.deposit L.mine.id = stored := hL₀.stored
  have hconnected : (w.sent h).drained.isConnected = L.connected := hL₀.connected
  rw [World.writeNow_run (show (w.sent h).session.writing = true from hwriting)] at hrun
  obtain ⟨hresult, rfl⟩ := Prod.mk.inj hrun
  -- Whatever the store holds afterwards, the copy shows the ledger with just that stored.
  have hshown {now : Option Deposit}
      (hnow : (Store.update L.mine.id ((w.session.copyOf h).update w.clock)
        (w.sent h).drained).2.deposit L.mine.id = now) :=
    hL₀.restored (t := { (w.sent h).settled with store := (Store.update L.mine.id
      ((w.session.copyOf h).update w.clock) (w.sent h).drained).2 }) hL₀.given rfl rfl rfl
      (L.drained stored).disturbed hafter.sound hafter.connected hafter.durable .nil hnow
  rcases hjob.outcome hL₀.sound with
    ⟨old, new, hok, hopen, hold, hnew, hwritten⟩ | ⟨⟨e, herror⟩, hsame, hfails⟩
  · obtain rfl : result = .ok () := hresult.symm.trans hok
    have hwritten' : Written L.durable L.changed (L.sent w.clock).mine old new := by
      rw [← hL.durable, ← hdurable]
      exact hwritten
    exact ⟨_, .written w.clock hchanged (hL.writing.symm.trans hwriting) hsettles
      (hconnected.symm.trans hopen) (hstored.symm.trans hold) hwritten', hshown hnew⟩
  · obtain rfl : result = .error e := hresult.symm.trans herror
    have hshut : ¬ (L.drained stored).Open := by
      rintro ⟨hopen, hsome⟩
      rcases hfails with hoffline | hmissing
      · exact Bool.false_ne_true (hoffline.symm.trans (hconnected.trans hopen))
      · obtain rfl : stored = none := hstored.symm.trans hmissing
        cases hsome
    have hkept := (congrArg (Store.deposit · L.mine.id) hsame).trans hstored
    exact ⟨_, .failed w.clock hchanged e (.inl ⟨hL.writing.symm.trans hwriting, hsettles, hshut⟩),
      unsaved (L := { L.drained stored with mine := (L.sent w.clock).mine }) (hshown hkept) hL.changed⟩

theorem saves (hL : L.Shows h w) {result : Except RuntimeError Bool}
    (hrun : (World.save h).run w = (result, t)) : ∃ L', L.Saves result L' ∧ L'.Shows h t := by
  cases hclean : (w.session.copyOf h).dirty.isClean with
  | true =>
    rw [World.save_clean hclean] at hrun
    obtain ⟨rfl, rfl⟩ := Prod.mk.inj hrun
    exact ⟨L, .clean (hL.isClean_iff.mp hclean), hL⟩
  | false =>
    have hchanged := hL.exists_changed hclean
    rw [World.save_dirty hclean, hL.mine] at hrun
    cases hwriting : w.session.writing with
    | false =>
      rw [World.writeNow_stopped (show (w.sent h).session.writing = false from hwriting)] at hrun
      obtain ⟨rfl, rfl⟩ := Prod.mk.inj hrun
      refine ⟨_, .failed w.clock hchanged .notConnected
        (.inr ⟨hL.writing.symm.trans hwriting, rfl⟩), ?_⟩
      exact unsaved (L := { L with mine := (L.sent w.clock).mine }) hL.sent hL.changed
    | true =>
      rcases hwrite : World.writeNow L.mine.id ((w.session.copyOf h).update w.clock) (w.sent h)
        with ⟨e | _, w₁⟩
      · rw [hwrite] at hrun
        obtain ⟨rfl, rfl⟩ := Prod.mk.inj hrun
        exact hL.saves_writing hchanged hwriting hwrite
      · rw [hwrite] at hrun
        obtain ⟨rfl, rfl⟩ := Prod.mk.inj hrun
        exact hL.saves_writing hchanged hwriting hwrite

theorem saveLater (hL : L.Shows h w) :
    ∃ L', L.Step .saveLater L' ∧ L'.Shows h (World.saveLater h w).2 := by
  cases hclean : (w.session.copyOf h).dirty.isClean with
  | true =>
    rw [World.saveLater_clean hclean]
    exact ⟨L, .sendNothing (hL.isClean_iff.mp hclean), hL⟩
  | false =>
    have hchanged := hL.exists_changed hclean
    have hid : ((w.sent h).session.copyOf h).record.id = L.mine.id := by
      rw [hL.sent.mine]
      rfl
    rw [World.saveLater_dirty hclean, hid]
    cases hwriting : w.session.writing with
    | false =>
      rw [World.writeLater_stopped (show (w.sent h).session.writing = false from hwriting)]
      have hsent := hL.sent
      exact ⟨_, .drop w.clock hchanged (hL.writing.symm.trans hwriting),
        hsent.restored hsent.given rfl rfl rfl True hsent.sound rfl rfl hsent.waiting hsent.stored⟩
    | true =>
      rw [World.writeLater_run (show (w.sent h).session.writing = true from hwriting)]
      have hsent := hL.sent
      refine ⟨_, .send w.clock hchanged (hL.writing.symm.trans hwriting),
        hsent.restored (t := { w.sent h with session := { (w.sent h).session with
          queue := (w.sent h).session.queue ++ [⟨L.mine.id, (w.session.copyOf h).update w.clock⟩] } })
          hsent.given rfl rfl rfl L.disturbed hsent.sound rfl rfl ?_ hsent.stored⟩
      exact List.rel_append hsent.waiting (.cons hL.sends .nil)

/-! ## The other operations -/

theorem setParent (hL : L.Shows h w) {parent : ObjectId} {result : Except RuntimeError Unit}
    (hrun : (World.setParent h parent).run w = (result, t)) :
    ∃ L', L.Step (.setParent parent result) L' ∧ L'.Shows h t := by
  have hlook := (World.Untouched.unread h w).allowParent (w.session.copyOf h).record.id parent w
    (.refl hL.given)
  rw [World.setParent_run] at hrun
  rcases hallowed : (World.allowParent (w.session.copyOf h).record.id parent).run w with ⟨e | _, w₁⟩
  · rw [hallowed] at hrun hlook
    obtain ⟨rfl, rfl⟩ := Prod.mk.inj hrun
    obtain ⟨L', hlooks, hL'⟩ := hL.looks hlook
    exact ⟨L', .keepParent e hlooks, hL'⟩
  · rw [hallowed] at hrun hlook
    obtain ⟨L₁, hlooks, hL₁⟩ := hL.looks hlook
    have hmine := hlooks.mine
    have hedited := hL₁.edited { parent := some parent } Dirty.marks_addHeader
    rcases hsave : (World.save h).run ((do
      World.onRecord h fun r => { r with parent }
      World.onDirty h fun d => { d with header := true } : StateM World Unit) w₁).2 with ⟨saved, w₂⟩
    have hreparent := World.reparent_run h parent w₁ hsave
    rw [show (World.reparent h parent).run w₁ = (result, t) from hrun] at hreparent
    obtain ⟨rfl, rfl⟩ := Prod.mk.inj hreparent
    obtain ⟨L₂, hsaves, hL₂⟩ := hedited.saves hsave
    refine ⟨L₂, .setParent hlooks ?_, hL₂⟩
    rw [← hmine]
    exact hsaves

theorem refresh (hL : L.Shows h w) {result : Except RuntimeError Unit}
    (hrun : (World.refresh h).run w = (result, t)) :
    ∃ L', L.Step (.refresh result) L' ∧ L'.Shows h t := by
  have hsame := Store.fetch_same L.mine.id w.drained
  obtain ⟨L₁, hsettles, hL₁⟩ :=
    hL.settles (t := w.reread L.mine.id) hL.given rfl rfl rfl hsame rfl
  have hdrained : w.drained.Sound := (After.writes hL.sound hL.waiting).sound
  have hmine := hsettles.mine
  have hstored : w.drained.deposit L.mine.id = L₁.stored := by
    rw [← hsame.deposit, ← hL₁.stored, hmine]
    rfl
  have hconnected : w.drained.isConnected = L.connected :=
    hsame.isConnected.symm.trans (hL₁.connected.trans hsettles.connected)
  rw [World.refresh_run, hL.mine] at hrun
  by_cases hc : w.drained.isConnected = true
  · rw [Store.fetch_read hc] at hrun
    rcases hread : w.drained.read L.mine.id with e | _ | r
    · -- Something of the object cannot be read.
      rw [hread] at hrun
      obtain ⟨rfl, rfl⟩ := Prod.mk.inj hrun
      refine ⟨L₁, .keepAll _ hsettles fun _ d hd => ?_, hL₁⟩
      obtain ⟨d', p, hd', hp⟩ := hdrained.read_error hread
      rw [hstored, hd] at hd'
      cases hd'
      exact ⟨p, hp⟩
    · rw [hread] at hrun
      obtain ⟨rfl, rfl⟩ := Prod.mk.inj hrun
      refine ⟨L₁, .keepAll _ hsettles fun _ d hd => ?_, hL₁⟩
      rw [← hstored, hdrained.read_eq_none.mp hread] at hd
      cases hd
    · rw [hread] at hrun
      obtain ⟨rfl, rfl⟩ := Prod.mk.inj hrun
      obtain ⟨d, hd, hid, hr⟩ := hdrained.reads hread
      -- The copy is replaced by the record, without marks.
      have hcopy : ((w.reread L.mine.id).refreshed h r).session.copyOf h = { record := r } :=
        Session.copyOf_change_self hL₁.given _
      refine ⟨_, .refresh hsettles (hconnected.symm.trans hc) (hstored.symm.trans hd) hr, hL₁.copied
        (t := (w.reread L.mine.id).refreshed h r) ⟨rfl, rfl, rfl, rfl⟩
        ((Session.given_change _).mpr hL₁.given) (congrArg Copy.record hcopy) (fun p => ?_)
        ((hr.id.symm.trans hid).trans (congrArg Record.id hmine.symm))⟩
      rw [hcopy]
      exact ⟨Dirty.not_marks_clean p, False.elim⟩
  · rw [Store.fetch_offline (Bool.not_eq_true _ ▸ hc)] at hrun
    obtain ⟨rfl, rfl⟩ := Prod.mk.inj hrun
    exact ⟨L₁, .keepAll _ hsettles fun hopen => absurd (hconnected.trans hopen) hc, hL₁⟩

theorem write (hL : L.Shows h w) : ∃ L', L.Step .write L' ∧ L'.Shows h w.writeNext := by
  have hwaiting := hL.waiting
  unfold World.writeNext
  cases hqueue : w.session.queue with
  | nil =>
    rw [hqueue] at hwaiting
    exact ⟨L, .noWrite (List.forall₂_nil_left_iff.mp hwaiting), hL⟩
  | cons job rest =>
    rw [hqueue] at hwaiting
    obtain ⟨p, ps, hjob, hrest, hps⟩ := List.forall₂_cons_left_iff.mp hwaiting
    have hafter := After.write hL.sound hjob
    have happlied := hafter.applied
    rw [hL.durable, hL.connected, hL.stored] at happlied
    exact ⟨_, .write hps happlied,
      hL.restored (t := { w with
          store := applyJob w.store job, session := { w.session with queue := rest } })
        hL.given rfl rfl rfl _ hafter.sound hafter.connected hafter.durable hrest rfl⟩

end Shows

/-! ## Runs -/

/-- Whatever happens otherwise leaves the copy and the waiting writes alone. -/
structure Outside (h : Handle) (w t : World) : Prop where
  given : t.session.Given h
  copy : t.session.copyOf h = w.session.copyOf h
  queue : t.session.queue = w.session.queue
  sound : t.store.Sound
  durable : t.store.isDurable = w.store.isDurable
  clock : t.store.isDurable = true → t.clock.Valid

/-- An event happens in a world. -/
def Event.Happens (h : Handle) : Event → World → World → Prop
  | .setProperty name v, w, t => t = (World.setProperty h name v w).2
  | .removeProperty name was, w, t => World.removeProperty h name w = (was, t)
  | .setMethod name m, w, t => t = (World.setMethod h name m w).2
  | .removeMethod name was, w, t => World.removeMethod h name w = (was, t)
  | .setParent parent result, w, t => (World.setParent h parent).run w = (result, t)
  | .save result, w, t => (World.save h).run w = (result, t)
  | .saveLater, w, t => t = (World.saveLater h w).2
  | .refresh result, w, t => (World.refresh h).run w = (result, t)
  | .write, w, t => t = w.writeNext
  | .outside, w, t => Outside h w t

/-- One event after the other, each with the world after it. -/
inductive Happen (h : Handle) : World → List (Event × World) → World → Prop
  | nil (w : World) : Happen h w [] w
  | cons {w w₁ w₂ : World} {e : Event} {run : List (Event × World)} (he : e.Happens h w w₁)
      (hrest : Happen h w₁ run w₂) : Happen h w ((e, w₁) :: run) w₂

/-- What the ledger says of a run: each event is a step of the ledger, and the world is as the ledger
says after each. -/
inductive Follows (h : Handle) : Ledger → List (Event × World) → Ledger → Prop
  | nil (L : Ledger) : Follows h L [] L
  | cons {L L₁ L₂ : Ledger} {w₁ : World} {e : Event} {run : List (Event × World)}
      (hstep : L.Step e L₁) (hshows : L₁.Shows h w₁) (hrest : Follows h L₁ run L₂) :
      Follows h L ((e, w₁) :: run) L₂

/-- Whatever happens is a step of the ledger. -/
theorem Shows.step {L : Ledger} {h : Handle} {w t : World} (hL : L.Shows h w) {e : Event}
    (he : e.Happens h w t) : ∃ L', L.Step e L' ∧ L'.Shows h t := by
  cases e with
  | setProperty name v =>
    obtain rfl := he
    exact ⟨_, .setProperty name v, hL.setProperty name v⟩
  | removeProperty name was => exact hL.removeProperty he
  | setMethod name m =>
    obtain rfl := he
    exact ⟨_, .setMethod name m, hL.setMethod name m⟩
  | removeMethod name was => exact hL.removeMethod he
  | setParent parent result => exact hL.setParent he
  | save result =>
    obtain ⟨L', hsaves, hL'⟩ := hL.saves he
    exact ⟨L', .save hsaves, hL'⟩
  | saveLater =>
    obtain rfl := he
    exact hL.saveLater
  | refresh result => exact hL.refresh he
  | write =>
    obtain rfl := he
    exact hL.write
  | outside =>
    refine ⟨_, .outside (t.store.deposit L.mine.id) t.store.isConnected t.session.writing, ?_⟩
    exact {
      given := he.given
      mine := he.copy ▸ hL.mine
      changed := he.copy ▸ hL.changed
      waiting := by
        rw [he.queue, he.durable]
        exact hL.waiting
      stored := rfl
      durable := he.durable.trans hL.durable
      connected := rfl
      writing := rfl
      sound := he.sound
      clock := he.clock }

/-- The ledger of a handle without changes. -/
def start (h : Handle) (w : World) : Ledger where
  mine := (w.session.copyOf h).record
  changed := fun _ => False
  waiting := []
  stored := w.store.deposit (w.session.copyOf h).record.id
  durable := w.store.isDurable
  connected := w.store.isConnected
  writing := w.session.writing
  disturbed := False

/-- What is stored for a handle is its record, as far as texts say it. -/
def Kept (h : Handle) (w : World) : Prop :=
  ∃ d, w.store.deposit (w.session.copyOf h).record.id = some d ∧
    But w.store.isDurable (fun _ => False) (w.session.copyOf h).record d

/-- A handle that has just been read or created. -/
structure Fresh (h : Handle) (w : World) : Prop where
  given : w.session.Given h
  clean : (w.session.copyOf h).dirty.isClean = true
  queue : w.session.queue = []
  kept : Kept h w
  sound : w.store.Sound
  clock : w.store.isDurable = true → w.clock.Valid

theorem Fresh.shows {h : Handle} {w : World} (hw : Fresh h w) : (start h w).Shows h w where
  given := hw.given
  mine := rfl
  changed p := ⟨Dirty.isClean_iff.mp hw.clean p, False.elim⟩
  waiting := by
    rw [hw.queue]
    exact .nil
  stored := rfl
  durable := rfl
  connected := rfl
  writing := rfl
  sound := hw.sound
  clock := hw.clock

theorem Fresh.settled {h : Handle} {w : World} (hw : Fresh h w) : (start h w).Settled := by
  obtain ⟨d, hd, hbut⟩ := hw.kept
  refine fun _ => ⟨d, hd, fun e hleads => ?_⟩
  cases hleads
  exact hbut

/-- Induction on what happens. -/
theorem Shows.follows {L : Ledger} {h : Handle} {w t : World} {run : List (Event × World)}
    (hL : L.Shows h w) (hs : L.Settled) (hrun : Happen h w run t) :
    ∃ L', Follows h L run L' ∧ L'.Shows h t ∧ L'.Settled := by
  induction hrun generalizing L with
  | nil w => exact ⟨L, .nil L, hL, hs⟩
  | cons he _ ih =>
    obtain ⟨L₁, hstep, hL₁⟩ := hL.step he
    obtain ⟨L₂, hfollows, hL₂, hs₂⟩ := ih hL₁ (hs.step hstep)
    exact ⟨L₂, .cons hstep hL₁ hfollows, hL₂, hs₂⟩

/-- What is stored is what is kept of a copy without marks, when nothing waits, nothing has been edited
from outside and no background write has failed. -/
theorem Shows.kept {L : Ledger} {h : Handle} {w : World} (hL : L.Shows h w) (hs : L.Settled)
    (hcalm : ¬ L.disturbed) (hclean : (w.session.copyOf h).dirty.isClean = true)
    (hqueue : w.session.queue = []) : Kept h w := by
  obtain ⟨d, hd, hbut⟩ := hs hcalm
  have hwaiting := hL.waiting
  rw [hqueue] at hwaiting
  rw [List.forall₂_nil_left_iff.mp hwaiting] at hbut
  have hunchanged : L.changed = fun _ => False :=
    funext fun p => propext ⟨hL.isClean_iff.mp hclean p, False.elim⟩
  have hsame := hbut d (.nil d)
  rw [hunchanged, ← hL.mine, ← hL.durable] at hsame
  exact ⟨d, by rw [hL.mine, hL.stored, hd], hsame⟩

/-- What is kept of a copy is the copy, if all its values survive. -/
theorem Shows.read_eq {L : Ledger} {h : Handle} {w : World} (hL : L.Shows h w) (hkept : Kept h w)
    (hsurvives : w.store.isDurable = true →
      ∀ e ∈ (w.session.copyOf h).record.properties.entries, e.2.Survives) :
    w.store.read (w.session.copyOf h).record.id = .ok (some (w.session.copyOf h).record) := by
  obtain ⟨d, hd, hbut⟩ := hkept
  exact hL.sound.read_eq_some.mpr ⟨d, hd, hbut.reads hsurvives⟩

/-- Tracking of changes is exact.  Whatever is done with a handle, and whatever happens to the store
meanwhile, the ledger says it, event by event: a write that reaches the store brings the paths
changed since the last save, waiting write or refresh to what is kept of what the handle has there,
and leaves all others; a save that fails leaves the record and the changed paths as they are; and the
marks are at all times the changed paths.  What is stored is what is kept of a copy without marks,
when nothing waits, nothing has been edited from outside and no background write has failed.  That is
the copy itself, unless one of its values does not survive its text. -/
theorem tracking_exact {h : Handle} {w t : World} {run : List (Event × World)} (hfresh : Fresh h w)
    (hrun : Happen h w run t) : ∃ L, Follows h (start h w) run L ∧ L.Shows h t ∧
      (¬ L.disturbed → (t.session.copyOf h).dirty.isClean = true → t.session.queue = [] →
        Kept h t ∧
        ((t.store.isDurable = true →
            ∀ e ∈ (t.session.copyOf h).record.properties.entries, e.2.Survives) →
          t.store.read (t.session.copyOf h).record.id = .ok (some (t.session.copyOf h).record))) := by
  obtain ⟨L, hfollows, hL, hsettled⟩ := hfresh.shows.follows hfresh.settled hrun
  refine ⟨L, hfollows, hL, fun hcalm hclean hqueue => ?_⟩
  have hkept := hL.kept hsettled hcalm hclean hqueue
  exact ⟨hkept, hL.read_eq hkept⟩

/-- Nothing waits, and nothing has gone on unnoticed. -/
structure Quiet (L : Ledger) : Prop where
  calm : ¬ L.disturbed
  waiting : L.waiting = []

theorem Quiet.edited {L : Ledger} (h : L.Quiet) {p : Path} {r : Record} : (L.edited p r).Quiet :=
  ⟨h.calm, h.waiting⟩

theorem Quiet.save {L L' : Ledger} (h : L.Quiet) {result : Except RuntimeError Bool}
    (hstep : L.Step (.save result) L') : L'.Quiet := by
  have hsettles {L₁ : Ledger} (hsettles : L.Settles L₁) : L₁.Quiet := by
    obtain ⟨stored, -, rfl⟩ := hsettles
    exact ⟨fun hd => hd.elim h.calm fun hd => hd.1 h.waiting, rfl⟩
  have hsaves : L.Saves result L' := by
    cases hstep
    assumption
  cases hsaves with
  | clean => exact h
  | written now _ _ hs => exact ⟨(hsettles hs).calm, (hsettles hs).waiting⟩
  | failed now _ e hfails =>
    rcases hfails with ⟨-, hs, -⟩ | ⟨-, rfl⟩
    · exact ⟨(hsettles hs).calm, (hsettles hs).waiting⟩
    · exact ⟨h.calm, h.waiting⟩

/-- The object is left alone from outside. -/
theorem Quiet.outside {L L' : Ledger} {h : Handle} {w t : World} (hq : L.Quiet) (hL : L.Shows h w)
    (hL' : L'.Shows h t) (hstep : L.Step .outside L')
    (hsame : t.store.deposit L.mine.id = w.store.deposit L.mine.id) : L'.Quiet := by
  cases hstep with
  | outside stored connected writing =>
    have hstored : stored = L.stored := hL'.stored.symm.trans (hsame.trans hL.stored)
    exact ⟨fun hd => hd.elim hq.calm fun hne => hne hstored, hq.waiting⟩

/-- The header of the only object that is stored. -/
def oneHeader : Header := ⟨.root, .nothing, .epoch, .epoch, false⟩

def oneStored : DurableStore :=
  { connected := true, objects := [(oneHeader.id.bytes, oneHeader.toJson.write)] }

theorem oneStored_text : oneStored.objects.get? oneHeader.id.bytes = some oneHeader.toJson.write :=
  Dict.get?_of_mem (List.pairwise_singleton _ _) (List.mem_singleton_self _)

theorem oneHeader_timed : oneHeader.Timed := ⟨Timestamp.epoch_valid, Timestamp.epoch_valid⟩

/-- A world in which the only object of a durable store has just been read. -/
def oneRead : World where
  store := .durable oneStored
  session := { runtime := {}, copies := #[{ record := .bare .root .nothing .epoch }] }

theorem oneRead_fresh : Fresh ⟨0⟩ oneRead where
  given := Nat.zero_lt_one
  clean := rfl
  queue := rfl
  kept := by
    have hd := Store.deposit_of_text oneHeader_timed oneStored_text
    refine ⟨_, hd, rfl, rfl, fun _ => rfl, fun p _ => .inl ?_⟩
    cases p <;> rfl
  sound := by
    refine ⟨⟨fun e he => ?_, nofun, nofun⟩, .nil, .nil⟩
    exact ⟨oneHeader, oneHeader_timed, List.mem_singleton.mp he⟩
  clock _ := Timestamp.epoch_valid

/-- The connection is lost, or made again. -/
def connecting (connected : Bool) (w : World) : World :=
  { w with store := ((if connected then Store.connect else Store.disconnect) w.store).2 }

theorem connecting_outside {h : Handle} {w : World} {L : Ledger} (hL : L.Shows h w) (connected : Bool) :
    Outside h w (connecting connected w) ∧
      (connecting connected w).store.deposit L.mine.id = w.store.deposit L.mine.id := by
  obtain ⟨store, session, clock, seed⟩ := w
  cases store with
  | memory s => cases connected <;> exact ⟨⟨hL.given, rfl, rfl, hL.sound, rfl, hL.clock⟩, rfl⟩
  | durable s =>
    obtain ⟨⟨hheaders, hvalues, hmethods⟩, hordered⟩ := hL.sound
    cases connected <;>
      exact ⟨⟨hL.given, rfl, rfl, ⟨⟨hheaders, hvalues, hmethods⟩, hordered⟩, rfl, hL.clock⟩, rfl⟩

/-- A property of the object that has been read is set. -/
def painted : World := (World.setProperty ⟨0⟩ "color" (.str "red") oneRead).2

/-- The connection is lost, a save fails, and the connection is made again. -/
def unpainted : World := connecting true ((World.save ⟨0⟩).run (connecting false painted)).2

theorem unpainted_saves : (World.save ⟨0⟩).run unpainted =
    (.ok true, { (unpainted.sent ⟨0⟩).settled with store :=
      (Store.update (unpainted.session.copyOf ⟨0⟩).record.id
        ((unpainted.session.copyOf ⟨0⟩).update unpainted.clock) (unpainted.sent ⟨0⟩).drained).2 }) := by
  have hplace : (Store.durable oneStored).place oneHeader.id ≠ none := by
    rw [Store.place, DurableStore.header_of_text oneHeader_timed oneStored_text]
    exact Option.some_ne_none _
  have hok : (Store.update (unpainted.session.copyOf ⟨0⟩).record.id
      ((unpainted.session.copyOf ⟨0⟩).update unpainted.clock) (unpainted.sent ⟨0⟩).drained).1 =
        .ok () := Store.update_ok oneRead_fresh.sound.own rfl hplace _
  rw [World.save_dirty rfl, World.writeNow_run rfl, hok]

/-- A save fails for want of a connection.  The next one makes up for it, and then what is stored is the
copy. -/
theorem tracking_exact_painted : ∃ w,
    Happen ⟨0⟩ oneRead [(.setProperty "color" (.str "red"), painted),
        (.outside, connecting false painted),
        (.save (.error (.persistence .notConnected)), ((World.save ⟨0⟩).run (connecting false painted)).2),
        (.outside, unpainted), (.save (.ok true), w)] w ∧
      w.store.read .root = .ok (some (w.session.copyOf ⟨0⟩).record) ∧
      (w.session.copyOf ⟨0⟩).record.properties.get? "color" = some (.str "red") := by
  have hset : (Event.setProperty "color" (.str "red")).Happens ⟨0⟩ oneRead painted := rfl
  obtain ⟨L₁, -, h₁⟩ := oneRead_fresh.shows.step hset
  have hlost := (connecting_outside h₁ false).1
  obtain ⟨L₂, -, h₂⟩ := h₁.step (e := .outside) hlost
  have hfailed : (World.save ⟨0⟩).run (connecting false painted) =
      (.error (.persistence .notConnected), ((World.save ⟨0⟩).run (connecting false painted)).2) :=
    Prod.ext rfl rfl
  obtain ⟨L₃, -, h₃⟩ := h₂.step (e := .save _) hfailed
  have hmade := (connecting_outside h₃ true).1
  have hrun := Happen.cons hset (.cons (e := .outside) hlost (.cons (e := .save _) hfailed
    (.cons (e := .outside) hmade (.cons (e := .save _) unpainted_saves (.nil _)))))
  refine ⟨_, hrun, ?_, rfl⟩
  obtain ⟨L, hfollows, -, hstored⟩ := tracking_exact oneRead_fresh hrun
  have hcalm : ¬ L.disturbed := by
    have hquiet : (start ⟨0⟩ oneRead).Quiet := ⟨id, rfl⟩
    obtain _ | ⟨⟨⟩, hs₁, hfollows⟩ := hfollows
    obtain _ | ⟨hlost', hs₂, hfollows⟩ := hfollows
    have hquiet₂ := hquiet.edited.outside hs₁ hs₂ hlost' (connecting_outside hs₁ false).2
    obtain _ | ⟨hfailed', hs₃, hfollows⟩ := hfollows
    have hquiet₃ := hquiet₂.save hfailed'
    obtain _ | ⟨hmade', hs₄, hfollows⟩ := hfollows
    have hquiet₄ := hquiet₃.outside hs₃ hs₄ hmade' (connecting_outside hs₃ true).2
    obtain _ | ⟨hsaved, -, hfollows⟩ := hfollows
    cases hfollows
    exact (hquiet₄.save hsaved).calm
  obtain ⟨-, hread⟩ := hstored hcalm rfl rfl
  refine hread fun _ e he => ?_
  cases List.mem_singleton.mp he
  exact Value.survives_str "red"

end Lineage.Ledger
