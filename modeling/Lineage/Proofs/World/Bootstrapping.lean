/-
  Lineage.Proofs.World.Bootstrapping

  Asking for the root object, while others use the store too.

  In between the happenings of the system itself somebody else asks the store for
  something, as another system on the same store would (`Shares`).  Others may create,
  change and delete what they like.  As long as the numbers last, none is in use that is
  still to be given, and the store stays tidy (`World.Neat`, `Shares.neat`).

  The root is found, or it is made where nothing is stored, or it is refused, and then nothing
  has changed (`World.Rooted`); whatever it came to, it comes to the same again and changes
  nothing more (`World.Shares.ensureRoot_settles`).  Numbers are not given twice, though.  So
  where all objects have been deleted another object is stored than the root, before the
  root is refused (`World.Rooted.astray`).
-/
import Lineage.Proofs.Store.Commands
import Lineage.Proofs.Store.Tidiness
import Lineage.Proofs.World.Browsing
import Lineage.Proofs.World.Numbering

namespace Lineage

-- Nothing here depends on what the compiler makes of a source, or on how a run goes.
attribute [local irreducible] Program.compile Machine.run

/-! ## What others do -/

namespace Store

theorem answer_snd {α : Type} (f : α → Answer) (outcome : Except StoreError α × Store) :
    (answer f outcome).2 = outcome.2 := by
  obtain ⟨_ | a, s⟩ := outcome <;> rfl

/-- How many objects may be created. -/
def Command.cost (c : Command) : Nat := if c.isCreate then 1 else 0

theorem Command.edits (c : Command) (s : Store) : Edit s (c.perform s).2 := by
  cases c with
  | connect => exact answer_snd _ _ ▸ .connect s
  | disconnect => exact answer_snd _ _ ▸ .disconnect s
  | create r => exact answer_snd _ _ ▸ .create s r
  | fetch id => exact answer_snd _ _ ▸ .fetch s id
  | update id u => exact answer_snd _ _ ▸ .update s id u
  | delete id => exact answer_snd _ _ ▸ .delete s id
  | list recycledToo => exact answer_snd _ _ ▸ .list s recycledToo

theorem Numbered.delete {s : Store} {k : Nat} (hs : s.Numbered k) (id : ObjectId) :
    (Store.delete id s).2.Numbered k :=
  hs.of_reads (ordered_delete hs.ordered id) (next_delete id s) fun _ hother =>
    read_delete_absent hs.ordered hother id

end Store

namespace World

open Store (Command)

/-- The world after somebody else has asked the store for something. -/
def aside (w : World) (c : Command) : World := { w with store := (c.perform w.store).2 }

theorem Coherent.aside {w : World} (hw : w.Coherent) (c : Command) : (w.aside c).Coherent :=
  ⟨hw.session, (c.edits w.store).faithful hw.store⟩

/-- A run in which at most so many objects may be created, by whomever. -/
inductive Shares : Nat → World → World → Prop
  | refl (w : World) : Shares 0 w w
  | next {n : Nat} {w w₁ : World} (h : Shares n w w₁) (e : Happening)
    (he : e.Proper (fun _ _ => True) w₁) : Shares (n + e.cost) w (e.after w₁)
  | aside {n : Nat} {w w₁ : World} (h : Shares n w w₁) (c : Command) :
    Shares (n + c.cost) w (w₁.aside c)

/-! ## What is kept -/

/-- `k` numbers can still be given, none of which is in use; the store is tidy, and clocks show
moments. -/
structure Neat (k : Nat) (w : World) : Prop where
  numbered : w.Numbered k
  tidy : w.store.Tidy
  clock : w.clock.Valid

namespace Neat

variable {k : Nat} {w : World}

theorem tended : Tended Neat where
  ordered hw := hw.numbered.store.ordered
  less hw := ⟨Numbered.tended.less hw.numbered, hw.tidy, hw.clock⟩
  same hw _ hs := ⟨Numbered.tended.same hw.numbered hs, hs.tidy.mpr hw.tidy, hw.clock⟩
  seeded hw seed := ⟨Numbered.tended.seeded hw.numbered seed, hw.tidy, hw.clock⟩
  waited hw now hnow := ⟨Numbered.tended.waited hw.numbered now hnow, hw.tidy, hnow⟩
  indifferent hw _ _ _ _ :=
    ⟨Numbered.tended.indifferent hw.numbered _ _ _ _, hw.tidy, hw.clock⟩
  changed hw h _ hid := ⟨Numbered.tended.changed hw.numbered h hid, hw.tidy, hw.clock⟩
  adopted hw _ hread := ⟨Numbered.tended.adopted hw.numbered hread, hw.tidy, hw.clock⟩
  queued hw id c := ⟨Numbered.tended.queued hw.numbered id c, hw.tidy, hw.clock⟩
  written {k w} hc hw := by
    have hnumbered := Numbered.tended.written hc hw.numbered
    unfold World.writeNext at hnumbered ⊢
    cases hqueue : w.session.queue with
    | nil => exact hw
    | cons job rest =>
      rw [hqueue] at hnumbered
      exact ⟨hnumbered, hw.tidy.update job.id job.update, hw.clock⟩
  updated hc hw id c :=
    ⟨Numbered.tended.updated hc hw.numbered id c, hw.tidy.update id _, hw.clock⟩
  created hc hw r hcreated hmodified := by
    have hnumbered := Numbered.tended.created hc hw.numbered r hcreated hmodified
    have htidy := hw.tidy.create r
    exact ⟨⟨hnumbered.1, htidy, hw.clock⟩, fun id hid => ⟨hnumbered.2 id hid, htidy, hw.clock⟩⟩
  disconnected hw := ⟨Numbered.tended.disconnected hw.numbered, hw.tidy.disconnect, hw.clock⟩
  reopened hw runtime := ⟨Numbered.tended.reopened hw.numbered runtime, hw.tidy.connect, hw.clock⟩

theorem start {s : Store} (hs : s = .memory {} ∨ s = .durable {}) (hk : k < 2 ^ 63)
    (runtime : RuntimeSettings) : (initial s runtime).Neat k := by
  refine ⟨.start hs hk runtime, ?_, Timestamp.epoch_valid⟩
  rcases hs with rfl | rfl
  · trivial
  · exact .nil

/-- Others keep it too.  One case for each thing that a store can be asked for. -/
theorem aside (hc : w.Coherent) (c : Command) (hw : w.Neat (k + c.cost)) : (w.aside c).Neat k := by
  have hstored {s : Store} (hw : w.Neat k) (hs : s.Numbered k) (hnext : s.next = w.store.next)
      (htidy : s.Tidy) : Neat k { w with store := s } :=
    ⟨hw.numbered.stored hs hnext, htidy, hw.clock⟩
  unfold World.aside
  cases c with
  | connect =>
    rw [show (Command.connect.perform w.store).2 = _ from Store.answer_snd _ _]
    exact hstored hw hw.numbered.store.connect (by cases w.store <;> rfl) hw.tidy.connect
  | disconnect =>
    rw [show (Command.disconnect.perform w.store).2 = _ from Store.answer_snd _ _]
    exact hstored hw hw.numbered.store.disconnect (by cases w.store <;> rfl) hw.tidy.disconnect
  | create r =>
    rw [show ((Command.create r).perform w.store).2 = _ from Store.answer_snd _ _]
    exact ⟨(Numbered.created hc hw.numbered r).1, hw.tidy.create r, hw.clock⟩
  | fetch id =>
    rw [show ((Command.fetch id).perform w.store).2 = _ from Store.answer_snd _ _]
    exact tended.same hw (Store.fetch_same id w.store)
  | update id u =>
    rw [show ((Command.update id u).perform w.store).2 = _ from Store.answer_snd _ _]
    exact hstored hw (hw.numbered.store.update hc.store id u) (Store.next_update id u _)
      (hw.tidy.update id u)
  | delete id =>
    rw [show ((Command.delete id).perform w.store).2 = _ from Store.answer_snd _ _]
    exact hstored hw (hw.numbered.store.delete id) (Store.next_delete id _) (hw.tidy.delete id)
  | list recycledToo =>
    rw [show ((Command.list recycledToo).perform w.store).2 = _ from Store.answer_snd _ _]
    exact tended.same hw (Store.list_same recycledToo w.store)

end Neat

/-- Whatever happens, and whatever others do, it is kept.  Induction on the run; what happens next
may still create what is left over. -/
theorem Shares.neat {n : Nat} {w w' : World} (h : Shares n w w') (hc : w.Coherent) {k : Nat}
    (hw : w.Neat (k + n)) : w'.Coherent ∧ w'.Neat k := by
  induction h generalizing k with
  | refl => exact ⟨hc, hw⟩
  | next _ e he ih =>
    rw [Nat.add_comm _ e.cost, ← Nat.add_assoc] at hw
    obtain ⟨hc₁, hw₁⟩ := ih hc hw
    refine ⟨hc₁.happens e he, Neat.tended.upheld.happens hc₁ e hw₁ ?_⟩
    exact he.mono fun op w _ => op.permitted_any w
  | aside _ c ih =>
    rw [Nat.add_comm _ c.cost, ← Nat.add_assoc] at hw
    obtain ⟨hc₁, hw₁⟩ := ih hc hw
    exact ⟨hc₁.aside c, .aside hc₁ c hw₁⟩

end World

namespace World

variable {w w' : World}

/-- What the root begins as, under the number that it gets. -/
def rootRecord (n : Int64) (now : Timestamp) : Record :=
  { draft .nothing (.ofList [(aliasProperty, .map [])]) {} now with id := ⟨n⟩ }

/-! ## No root -/

/-- There is no root, or it has been recycled. -/
def Rootless (w : World) : Prop :=
  w.met .root = .ok none ∨ ∃ c, w.met .root = .ok (some c) ∧ c.record.recycled = true

theorem Rootless.browsed (h : w.Rootless) (hb : Browsed w w') : w'.Rootless := by
  unfold Rootless
  rw [hb.met]
  exact h

theorem Rootless.load (hw : w.Coherent) (h : w.Rootless) :
    ∃ w', (load .root).run w = (.ok none, w') ∧ Browsed w w' := by
  obtain ⟨result, w', hrun, hbrowsed, hgives⟩ := loadWith_browses hw false .root
  refine ⟨w', ?_, hbrowsed⟩
  rw [World.load, hrun]
  rcases h with hmet | ⟨c, hmet, hrecycled⟩
  · rw [hmet] at hgives
    cases hgives
    rfl
  · rw [hmet] at hgives
    cases hgives with
    | recycled _ => rfl
    | found hlive _ =>
      rw [hrecycled] at hlive
      cases hlive

/-- A new object, which is refused if it is not the root. -/
def plant : Action Handle := do
  let h ← create .nothing (.ofList [(aliasProperty, .map [])]) {}
  if (← recordOf h).id ≠ .root then throw (.notFound .root)
  return h

/-- Without a root it depends on what is listed how it goes on. -/
theorem Rootless.ensureRoot_run (hw : w.Coherent) (h : w.Rootless) : ∃ w', Browsed w w' ∧
    ensureRoot.run w = match (Store.list true w.drained).1 with
      | .error e => (.error (.persistence e), w')
      | .ok [] => plant.run w'
      | .ok (_ :: _) => (.error (.notFound .root), w') := by
  obtain ⟨w₁, hload, hbrowsed⟩ := h.load hw
  have hsame := Store.list_same true w₁.drained
  have haccess : (access (Store.list true)).run w₁.settled =
      ((Store.list true w₁.drained).1.mapError RuntimeError.persistence,
        w₁.consulted (Store.list true w₁.drained).2) := access_run _ _
  have hlisted : (Store.list true w₁.drained).1 = (Store.list true w.drained).1 :=
    hbrowsed.drained.list true
  refine ⟨_, hbrowsed.trans (consulted_browsed hbrowsed.coherent hsame), ?_⟩
  rw [ensureRoot, run_bind, hload]
  dsimp only
  rw [run_lift_bind, settle_run, run_bind, haccess, hlisted]
  rcases (Store.list true w.drained).1 with e | _ | ⟨r, rest⟩
  · rfl
  · rfl
  · rfl

/-! ## Refusals -/

/-- What the root is refused for before anything is stored. -/
inductive Refused (w : World) : RuntimeError → Prop
  | unread {e : StoreError} (h : w.met .root = .error e) : Refused w (.persistence e)
  | unlisted {e : StoreError} (hroot : w.Rootless) (h : (Store.list true w.drained).1 = .error e) :
    Refused w (.persistence e)
  | inhabited {r : Record} {rest : List Record} (hroot : w.Rootless)
    (h : (Store.list true w.drained).1 = .ok (r :: rest)) : Refused w (.notFound .root)
  | unnumbered {e : StoreError} (hroot : w.Rootless) (h : (Store.list true w.drained).1 = .ok [])
    (hnext : w.drained.next = .error e) : Refused w (.persistence e)

/-- Only a connected store lists anything. -/
theorem connected_of_list {s : Store} {records : List Record} (h : (Store.list true s).1 = .ok records) :
    s.isConnected = true := by
  by_contra hc
  rw [Store.list_offline (Bool.not_eq_true _ ▸ hc)] at h
  cases h

theorem Refused.browsed {e : RuntimeError} (h : w.Refused e) (hb : Browsed w w') : w'.Refused e := by
  cases h with
  | unread hmet => exact .unread ((congrFun hb.met .root).trans hmet)
  | unlisted hroot hlist => exact .unlisted (hroot.browsed hb) ((hb.drained.list true).trans hlist)
  | inhabited hroot hlist => exact .inhabited (hroot.browsed hb) ((hb.drained.list true).trans hlist)
  | unnumbered hroot hlist hnext =>
    exact .unnumbered (hroot.browsed hb) ((hb.drained.list true).trans hlist)
      (hb.drained.next.trans hnext)

theorem Refused.run {e : RuntimeError} (hw : w.Coherent) (h : w.Refused e) :
    ∃ w', ensureRoot.run w = (.error e, w') ∧ Browsed w w' := by
  cases h with
  | unread hmet =>
    obtain ⟨result, w', hrun, hbrowsed, hgives⟩ := loadWith_browses hw false .root
    rw [hmet] at hgives
    cases hgives
    refine ⟨w', ?_, hbrowsed⟩
    rw [ensureRoot, run_bind, World.load, hrun]
  | unlisted hroot hlist =>
    obtain ⟨w', hbrowsed, hrun⟩ := hroot.ensureRoot_run hw
    rw [hlist] at hrun
    exact ⟨w', hrun, hbrowsed⟩
  | inhabited hroot hlist =>
    obtain ⟨w', hbrowsed, hrun⟩ := hroot.ensureRoot_run hw
    rw [hlist] at hrun
    exact ⟨w', hrun, hbrowsed⟩
  | unnumbered hroot hlist hnext =>
    obtain ⟨w₁, hbrowsed, hrun⟩ := hroot.ensureRoot_run hw
    rw [hlist] at hrun
    -- Creating fails before anything is written.
    have hconnected : w₁.drained.isConnected = true :=
      hbrowsed.drained.isConnected.trans (connected_of_list hlist)
    have hfails := Store.create_failed hconnected (hbrowsed.drained.next.trans hnext)
      (draft .nothing (.ofList [(aliasProperty, .map [])]) {} w₁.clock)
    refine ⟨_, ?_, hbrowsed.trans (consulted_browsed hbrowsed.coherent (.refl _))⟩
    rw [hrun, plant, run_bind, create_eq, hfails]

/-! ## Creation -/

/-- A table without aliases is read back. -/
theorem noAliases_survives : (Value.map []).Survives := by
  apply Value.survives_of_sound
  · intro x hx
    cases hx with
    | entry he _ => cases he
  · exact .map .nil nofun
  · decide

theorem draft_survives {now : Timestamp} (hnow : now.Valid) :
    (draft .nothing (.ofList [(aliasProperty, .map [])]) {} now).Survives where
  created := hnow
  modified := hnow
  values e he := by
    obtain rfl := List.mem_singleton.mp he
    exact noAliases_survives
  sources := nofun

/-- A new object has been stored where none was. -/
structure Planted (w w' : World) (n : Int64) (h : Handle) : Prop where
  coherent : w'.Coherent
  resident : w'.At ⟨n⟩ h
  copy : (w'.session.copyOf h).record = rootRecord n w.clock
  sole : w'.drained.Sole (rootRecord n w.clock)
  /-- If it is not the root there is none, as before. -/
  rootless : n ≠ 0 → w.Rootless → w'.Rootless

theorem create_plants (hw : w.Coherent) (htidy : w.drained.Tidy) (hclock : w.clock.Valid)
    (hlist : (Store.list true w.drained).1 = .ok []) {n : Int64} (hn : w.drained.next = .ok n)
    (hfirst : 0 ≤ n.toInt) (hfree : w.session.resident.get? ⟨n⟩ = none) : ∃ h w',
      (create .nothing (.ofList [(aliasProperty, .map [])]) {}).run w = (.ok h, w') ∧ Planted w w' n h := by
  have hconnected := connected_of_list hlist
  have hsole := (htidy.bare_of_list hconnected hlist).create hconnected hn hfirst (draft_survives hclock)
  obtain ⟨s, hcreate, hwrote, -⟩ := Store.create_run hconnected (drained_faithful hw) hn
    (draft .nothing (.ofList [(aliasProperty, .map [])]) {} w.clock)
  have hfaithful := (Store.Edit.create w.drained
    (draft .nothing (.ofList [(aliasProperty, .map [])]) {} w.clock)).faithful (drained_faithful hw)
  rw [hcreate] at hsole hfaithful
  -- Nothing but the store has changed when the record is adopted.
  have hstored : (w.consulted s).Coherent := ⟨hw.session.irrelevant _ _ _, hfaithful⟩
  have hsole : s.Sole (rootRecord n w.clock) := hsole
  have hmet : ∀ id, w.session.resident.get? id = none → (w.consulted s).met id =
      .ok (if id = ⟨n⟩ then some { record := rootRecord n w.clock } else none) := by
    intro id habsent
    have habsent' : (w.consulted s).session.resident.get? id = none := habsent
    rw [met_absent habsent', show (w.consulted s).drained = s from rfl, Store.yields,
      Store.fetch_read (hwrote.connected.trans hconnected), hsole.read]
    show _ = Except.ok (if id = (rootRecord n w.clock).id then _ else _)
    split <;> rfl
  have hnew : (w.consulted s).met (rootRecord n w.clock).id =
      .ok (some { record := rootRecord n w.clock }) :=
    (hmet _ hfree).trans (congrArg Except.ok (if_pos rfl))
  obtain ⟨h, w', hadopt, hbrowsed, hat⟩ := adopt_browses hstored hnew
  refine ⟨h, w', ?_, hbrowsed.coherent, hat, ?_, hbrowsed.drained.sole hsole, fun hused hroot => ?_⟩
  · rw [create_eq, hcreate]
    exact congrArg (fun p : Handle × World => (Except.ok p.1, p.2)) hadopt
  · rw [hbrowsed.copy_met hat hnew]
  · apply Rootless.browsed _ hbrowsed
    cases hres : w.session.resident.get? .root with
    | none =>
      left
      rw [hmet _ hres, if_neg]
      intro hroot
      exact hused (congrArg ObjectId.number hroot).symm
    | some g =>
      -- A copy that was resident is recycled, and still is.
      rcases hroot with hnone | ⟨c, hc, hrecycled⟩
      · rw [At.met hres] at hnone
        cases hnone
      · rw [At.met hres] at hc
        cases hc
        exact .inr ⟨_, At.met (show (w.consulted s).At .root g from hres), hrecycled⟩

/-! ## Asking once, and again -/

/-- What asking for the root comes to: it was there, or it has been made where nothing was stored, or
it is refused and nothing has changed.  Where nothing is stored but numbers have been given, it
is refused after another object has been stored. -/
inductive Rooted (w w' : World) : Except RuntimeError Handle → Prop
  | found {h : Handle} (hat : w'.At .root h) (hlive : (w'.session.copyOf h).record.recycled = false)
    (hbrowsed : Browsed w w') : Rooted w w' (.ok h)
  | made {h : Handle} (hempty : ∀ id, w.drained.read id = .ok none) (hat : w'.At .root h)
    (hcopy : (w'.session.copyOf h).record = rootRecord 0 w.clock)
    (hsole : w'.drained.Sole (rootRecord 0 w.clock)) : Rooted w w' (.ok h)
  | refused {e : RuntimeError} (hbrowsed : Browsed w w') : Rooted w w' (.error e)
  | astray {n : Int64} (hempty : ∀ id, w.drained.read id = .ok none)
    (hnext : w.drained.next = .ok n) (hused : n ≠ 0)
    (hsole : w'.drained.Sole (rootRecord n w.clock)) : Rooted w w' (.error (.notFound .root))

/-- Asking for the root comes to this, and to the same when it is asked for again, which changes
nothing more. -/
def SettlesRoot (w : World) : Prop := ∃ result w' w'', ensureRoot.run w = (result, w') ∧
  Rooted w w' result ∧ ensureRoot.run w' = (result, w'') ∧ Browsed w' w''

/-- A live root is found where it is resident. -/
theorem ensureRoot_resident {h : Handle} (hat : w.At .root h)
    (hlive : (w.session.copyOf h).record.recycled = false) : ensureRoot.run w = (.ok h, w) := by
  have hpick : (pick false h).run w = (.ok (some h), w) := by
    rw [pick, run_lift_bind, show recordOf h w = ((w.session.copyOf h).record, w) from rfl]
    dsimp only
    rw [hlive]
    rfl
  rw [ensureRoot, run_bind, World.load, loadWith_resident false hat, hpick]
  rfl

theorem Refused.settles {e : RuntimeError} (hw : w.Coherent) (h : w.Refused e) : w.SettlesRoot := by
  obtain ⟨w', hrun, hbrowsed⟩ := h.run hw
  obtain ⟨w'', hrun', hbrowsed'⟩ := (h.browsed hbrowsed).run hbrowsed.coherent
  exact ⟨_, w', w'', hrun, .refused hbrowsed, hrun', hbrowsed'⟩

/-- No object is stored or resident under the number that is given next. -/
theorem Neat.free {k : Nat} (hw : w.Neat k) (hc : w.Coherent) {n : Int64} (hn : w.drained.next = .ok n) :
    w.session.resident.get? ⟨n⟩ = none := by
  cases hres : w.session.resident.get? ⟨n⟩ with
  | none => rfl
  | some h =>
    have hlt : (w.session.copyOf h).record.id.number.toInt < n.toInt :=
      hw.numbered.copies n ((drained_frame hc).2.2 ▸ hn) h (hc.session.given _ h hres)
    rw [hc.session.named _ h hres] at hlt
    exact absurd hlt (Int.lt_irrefl _)

theorem plant_run {n : Int64} {h : Handle} (hcreate :
    (create .nothing (.ofList [(aliasProperty, .map [])]) {}).run w = (.ok h, w')) (hplanted : Planted w w' n h) :
    plant.run w = (if n = 0 then .ok h else .error (.notFound .root), w') := by
  have hid : (w'.session.copyOf h).record.id = ⟨n⟩ := by
    rw [hplanted.copy]
    rfl
  have hrecord : recordOf h w' = ((w'.session.copyOf h).record, w') := rfl
  rw [plant, run_bind, hcreate]
  dsimp only
  rw [run_lift_bind, hrecord]
  dsimp only
  rw [hid]
  by_cases hn : n = 0
  · subst hn
    rfl
  · rw [if_neg hn, if_pos]
    · rfl
    · intro hroot
      exact hn (congrArg ObjectId.number hroot)

/-- Where nothing is stored a new object is, and it is the root if none had been created before. -/
theorem Neat.settles_empty {k : Nat} (hw : w.Neat k) (hc : w.Coherent) (hroot : w.Rootless)
    (hlist : (Store.list true w.drained).1 = .ok []) {n : Int64} (hn : w.drained.next = .ok n) :
    w.SettlesRoot := by
  have hsettled : w.settled.Neat k := Neat.tended.settled hc hw
  have htidy : w.drained.Tidy := hsettled.tidy
  have hempty := (htidy.bare_of_list (connected_of_list hlist) hlist).read
  have hfirst : 0 ≤ n.toInt := hsettled.numbered.store.first n hn
  obtain ⟨w₁, hbrowsed, hrun⟩ := hroot.ensureRoot_run hc
  have hlist₁ : (Store.list true w₁.drained).1 = .ok [] := (hbrowsed.drained.list true).trans hlist
  have hclock : w₁.clock = w.clock := congrArg View.clock hbrowsed.view
  have hfree : w₁.session.resident.get? ⟨n⟩ = none := by
    have hmet : w₁.met ⟨n⟩ = .ok none := by
      rw [hbrowsed.met, met_absent (hw.free hc hn), Store.yields,
        Store.fetch_read (connected_of_list hlist), hempty]
      rfl
    cases hres : w₁.session.resident.get? ⟨n⟩ with
    | none => rfl
    | some g =>
      rw [At.met hres] at hmet
      cases hmet
  obtain ⟨h, w', hcreate, hplanted⟩ := create_plants hbrowsed.coherent
    (hbrowsed.drained.tidy.mpr htidy) (hclock ▸ hw.clock) hlist₁
    (hbrowsed.drained.next.trans hn) hfirst hfree
  rw [hlist] at hrun
  have hrun := hrun.trans (plant_run hcreate hplanted)
  have hcopy := hplanted.copy
  have hsole := hplanted.sole
  rw [hclock] at hcopy hsole
  by_cases hzero : n = 0
  · subst hzero
    have hlive : (w'.session.copyOf h).record.recycled = false := by
      rw [hcopy]
      rfl
    exact ⟨_, w', w', hrun, .made hempty hplanted.resident hcopy hsole,
      ensureRoot_resident hplanted.resident hlive, .refl hplanted.coherent⟩
  · rw [if_neg hzero] at hrun
    -- What has been stored stands in the way from then on.
    have hrefused : w'.Refused (.notFound .root) :=
      .inhabited (hplanted.rootless hzero (hroot.browsed hbrowsed)) hsole.listed
    obtain ⟨w'', hagain, hbrowsed'⟩ := hrefused.run hplanted.coherent
    exact ⟨_, w', w'', hrun, .astray hempty hn hzero hsole, hagain, hbrowsed'⟩

theorem Neat.settlesRoot {k : Nat} (hw : w.Neat k) (hc : w.Coherent) : w.SettlesRoot := by
  have hrootless (hroot : w.Rootless) : w.SettlesRoot := by
    rcases hlist : (Store.list true w.drained).1 with e | _ | ⟨r, rest⟩
    · exact (Refused.unlisted hroot hlist).settles hc
    · cases hn : w.drained.next with
      | error e => exact (Refused.unnumbered hroot hlist hn).settles hc
      | ok n => exact hw.settles_empty hc hroot hlist hn
    · exact (Refused.inhabited hroot hlist).settles hc
  rcases hmet : w.met .root with e | _ | c
  · exact (Refused.unread hmet).settles hc
  · exact hrootless (.inl hmet)
  · by_cases hrecycled : c.record.recycled = true
    · exact hrootless (.inr ⟨c, hmet, hrecycled⟩)
    · obtain ⟨result, w', hload, hbrowsed, hgives⟩ := loadWith_browses hc false .root
      rw [hmet] at hgives
      cases hgives with
      | recycled hskip =>
        rw [Bool.not_false, Bool.and_true] at hskip
        exact absurd hskip hrecycled
      | @found _ _ h hat =>
        have hlive : (w'.session.copyOf h).record.recycled = false := by
          rw [hbrowsed.copy_met hat hmet]
          exact Bool.not_eq_true _ ▸ hrecycled
        have hrun : ensureRoot.run w = (.ok h, w') := by
          rw [ensureRoot, run_bind, World.load, hload]
          rfl
        exact ⟨_, w', w', hrun, .found hat hlive hbrowsed, ensureRoot_resident hat hlive,
          .refl hbrowsed.coherent⟩

/-- Bootstrapping is settled by the first attempt: whatever has happened to a store that was empty,
and whatever others have done to it, asking for the root finds it, makes it where nothing is
stored, or fails and changes nothing; asking again comes to the same and changes nothing more. -/
theorem Shares.ensureRoot_settles {s : Store} (hs : s = .memory {} ∨ s = .durable {})
    (runtime : RuntimeSettings) {n : Nat} {w : World}
    (hrun : Shares n ((openSession runtime).run (initial s runtime)).2 w) (hnumbers : n < 2 ^ 63) :
    w.SettlesRoot := by
  have hstart := Numbered.coherent_initial hs runtime
  have hopened := (openSession_guards runtime).world hstart
  rw [← Nat.zero_add n] at hnumbers
  have hneat := Neat.tended.upheld.reopened hstart (Neat.start hs hnumbers runtime) runtime
  obtain ⟨hc, hw⟩ := hrun.neat hopened hneat
  exact hw.settlesRoot hc

/-- The first object has been created, and deleted by somebody else. -/
def emptied : World :=
  (Operation.invalidate ⟨0⟩).after (((Operation.create .nothing {} {}).after
    ((openSession {}).run (initial (.memory {}) {})).2).aside (.delete ⟨0⟩))

/-- Another object is stored than the root, which is refused nevertheless. -/
theorem Shares.ensureRoot_settles_emptied :
    Shares 1 ((openSession {}).run (initial (.memory {}) {})).2 emptied ∧
      ∃ w' w'', ensureRoot.run emptied = (.error (.notFound .root), w') ∧
        w'.drained.Sole (rootRecord 1 emptied.clock) ∧
        ensureRoot.run w' = (.error (.notFound .root), w'') ∧ Browsed w' w'' := by
  have hrun : Shares 1 ((openSession {}).run (initial (.memory {}) {})).2 emptied :=
    ((Shares.next (.refl _) (.operate (.create .nothing {} {})) ⟨nofun, trivial⟩).aside
      (.delete ⟨0⟩)).next (.operate (.invalidate ⟨0⟩)) ⟨nofun, trivial⟩
  obtain ⟨result, w', w'', hasked, hrooted, hagain, hbrowsed⟩ :=
    hrun.ensureRoot_settles (.inl rfl) {} (by decide)
  obtain rfl : result = .error (.notFound .root) :=
    (congrArg Prod.fst hasked).symm.trans (show (ensureRoot.run emptied).1 = _ from rfl)
  refine ⟨hrun, w', w'', hasked, ?_, hagain, hbrowsed⟩
  cases hrooted with
  | refused hunchanged =>
    -- Something is stored that was not.
    have hread : w'.drained.read ⟨1⟩ = .ok (some (rootRecord 1 emptied.clock)) :=
      (congrArg (fun p : Except RuntimeError Handle × World => p.2.drained.read ⟨1⟩) hasked).symm
    rw [hunchanged.drained.read, show emptied.drained.read ⟨1⟩ = .ok none from rfl] at hread
    cases hread
  | astray _ hnext _ hsole =>
    cases hnext
    exact hsole

end World

end Lineage
