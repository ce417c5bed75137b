/-
  Lineage.Proofs.World.Scans

  What is listed is what can be loaded.

  A scan reads the whole store and lets resident copies win; loading asks for the resident
  copy first.  Both see the same (`World.seen`), and where memory and store stay in step an
  object is wanted in a listing of the store just if its copy is (`listed_iff`).  So a scan
  gives the objects that loading gives, by increasing number (`Leads.scans_agree`).  One
  thing sets the two apart: a listing reads every stored record, also under a resident
  copy, and so fails on account of an illegible one that loading never looks at.
-/
import Lineage.Proofs.Store.Places
import Lineage.Proofs.World.Legibility
import Lineage.Proofs.World.Ascent

namespace Lineage

-- Nothing here depends on what the compiler makes of a source, or on how a run goes.
attribute [local irreducible] Program.compile Machine.run

/-- What stands behind a property. -/
abbrev Record.property (name : String) (r : Record) : Option Value := r.properties.get? name

namespace World

/-! ## What scans are to give -/

/-- Loading the object gives a handle. -/
def Loads (w : World) (recycledToo : Bool) (id : ObjectId) : Prop :=
  ∃ h w', (loadWith recycledToo id).run w = (.ok (some h), w')

/-- Loading the object gives a handle on something that has the property, with the given value in it
if one is given. -/
def Finds (w : World) (name : String) (wanted : Option Value) (id : ObjectId) : Prop :=
  ∃ h w₁ v w₂, (load id).run w = (.ok (some h), w₁) ∧
    (property? h name).run w₁ = (.ok (some v), w₂) ∧ ∀ u, wanted = some u → v.equals u = true

/-- The ids of the objects that handles stand for. -/
def idsOf (w : World) (handles : List Handle) : List ObjectId :=
  handles.map fun h => (w.session.copyOf h).record.id

/-- A scan gives handles on the objects of a set, by increasing number and each once.  It fails only if
a record is stored that cannot be read. -/
def Scans (w : World) (scan : Action (List Handle)) (P : ObjectId → Prop) : Prop :=
  match scan.run w with
  | (.error _, _) => ∃ id, w.drained.Blotted id
  | (.ok handles, w') => Increasing (w'.idsOf handles) ∧ ∀ id, id ∈ w'.idsOf handles ↔ P id

variable {w w' : World}

theorem idsOf_at (hw : w.Coherent) {ids : List ObjectId} {handles : List Handle}
    (hall : List.Forall₂ w.At ids handles) : w.idsOf handles = ids := by
  induction hall with
  | nil => rfl
  | cons hat _ ih => exact congrArg₂ List.cons (hw.session.named _ _ hat) ih

theorem scans_of_at {scan : Action (List Handle)} {P : ObjectId → Prop} {ids : List ObjectId}
    {handles : List Handle} (hrun : scan.run w = (.ok handles, w')) (hw' : w'.Coherent)
    (hall : List.Forall₂ w'.At ids handles) (hincreasing : Increasing ids)
    (hmem : ∀ id, id ∈ ids ↔ P id) : w.Scans scan P := by
  rw [Scans, hrun]
  dsimp only
  rw [idsOf_at hw' hall]
  exact ⟨hincreasing, hmem⟩

/-! ## Loading -/

/-- An object that is met is loaded, unless it is recycled and those are not asked for. -/
theorem loads_iff_met (hw : w.Coherent) {recycledToo : Bool} {id : ObjectId} :
    w.Loads recycledToo id ↔
      ∃ c, w.met id = .ok (some c) ∧ (recycledToo || !c.record.recycled) = true := by
  obtain ⟨result, w₁, hrun, -, hgives⟩ := loadWith_browses hw recycledToo id
  rw [Loads, hrun]
  generalize w.met id = met at hgives
  constructor
  · rintro ⟨h, w₂, hrun'⟩
    cases hgives with
    | failed | missing | recycled => cases hrun'
    | @found c hkept _ =>
      exact ⟨c, rfl, Classical.not_not.mp (mt left_out_iff.mpr (Bool.eq_false_iff.mp hkept))⟩
  · rintro ⟨c, hc, hshown⟩
    cases hgives with
    | failed | missing => cases hc
    | recycled hskip =>
      cases hc
      exact absurd hshown (left_out_iff.mp hskip)
    | found => exact ⟨_, _, rfl⟩

/-- With a connected store what is seen is loaded. -/
theorem loads_iff (hw : w.Coherent) (hc : w.drained.isConnected = true) {recycledToo : Bool}
    {id : ObjectId} : w.Loads recycledToo id ↔ w.view.shows recycledToo id = true := by
  rw [loads_iff_met hw, met_connected hc, View.shows, show w.view.seen = w.seen from rfl]
  rcases w.seen id with e | _ | c
  · exact iff_of_false (by rintro ⟨_, h, -⟩; cases h) Bool.false_ne_true
  · exact iff_of_false (by rintro ⟨_, h, -⟩; cases h) Bool.false_ne_true
  · refine ⟨?_, fun hshown => ⟨c, rfl, hshown⟩⟩
    rintro ⟨_, h, hshown⟩
    cases h
    exact hshown

/-! ## Properties -/

/-- Chains break off with an error where one of their objects cannot be seen.  Induction on the
steps. -/
theorem ascend_error {α : Type} {seen : ObjectId → Except StoreError (Option Copy)}
    {probe : Record → Option α} {fuel : Nat} {visited : List ObjectId} {r : Record} {e : StoreError}
    (h : ascend seen probe fuel visited r = .error e) : ∃ id, seen id = .error e := by
  induction fuel generalizing visited r with
  | zero => cases h
  | succ fuel ih =>
    simp only [ascend] at h
    split at h
    · cases h
    · split at h
      · cases h
      · split at h
        · cases h
        · split at h
          · rename_i hparent
            cases h
            exact ⟨_, hparent⟩
          · cases h
          · exact ih h

/-- What cannot be seen is stored and cannot be read. -/
theorem blotted_of_seen (hc : w.Coherent) (ho : w.Own) {id : ObjectId} {e : StoreError}
    (h : w.seen id = .error e) : w.drained.Blotted id := by
  cases hres : w.session.resident.get? id with
  | some g =>
    rw [At.seen hres] at h
    cases h
  | none =>
    rw [seen_absent hres, Store.fresh] at h
    cases hread : w.drained.read id with
    | error e' => exact ((Store.read_error_iff (ho.drained hc) id e').mp hread).1
    | ok found =>
      rw [hread] at h
      cases h

/-- Whether what was found is there, and is what a search is for. -/
def sought (found wanted : Option Value) : Bool :=
  match found, wanted with
  | some _, none => true
  | some v, some u => v.equals u
  | none, _ => false

theorem sought_iff {found wanted : Option Value} : sought found wanted = true ↔
    ∃ v, found = some v ∧ ∀ u, wanted = some u → v.equals u = true := by
  cases found with
  | none => exact ⟨nofun, fun ⟨_, h, _⟩ => nomatch h⟩
  | some v =>
    cases wanted with
    | none => exact ⟨fun _ => ⟨v, rfl, nofun⟩, fun _ => rfl⟩
    | some u =>
      constructor
      · intro h
        exact ⟨v, rfl, fun _ hu => Option.some.inj hu ▸ h⟩
      · rintro ⟨_, ⟨⟩, h⟩
        exact h u rfl

/-- Whether an object that is seen has a property that a search is for. -/
def bears (w : World) (name : String) (wanted : Option Value) (id : ObjectId) : Bool :=
  match w.seen id with
  | .ok (some c) =>
    match w.ascent (Record.property name) c.record with
    | .ok found => sought found wanted
    | .error _ => false
  | _ => false

theorem Loaded.bears (hw : w.Coherent) (h : Loaded w w') (name : String) (wanted : Option Value) :
    w'.bears name wanted = w.bears name wanted := by
  funext id
  rw [World.bears, World.bears, h.seen]
  cases hseen : w.seen id with
  | error e => rfl
  | ok found =>
    cases found with
    | none => rfl
    | some c =>
      have hid : w.seen c.record.id ≠ .ok none := by
        rw [seen_id hw hseen, hseen]
        exact nofun
      dsimp only
      rw [ascent_congr hw h.coherent h.seen _ hid]

/-- Objects are left out that do not bear the property.  Induction on the handles; following a chain
changes nothing of what is seen of the others. -/
theorem havingProperty_run (hw : w.Coherent) (hc : w.drained.isConnected = true) (name : String)
    (wanted : Option Value) {ids : List ObjectId} {handles : List Handle}
    (hall : List.Forall₂ w.At ids handles) :
    ∃ result w', (havingProperty name wanted handles).run w = (result, w') ∧ Loaded w w' ∧
      match result with
      | .error _ => ∃ id e, w.seen id = .error e
      | .ok found => List.Forall₂ w'.At (ids.filter (w.bears name wanted)) found := by
  induction handles generalizing w ids with
  | nil =>
    cases hall
    exact ⟨_, w, rfl, .refl hw, .nil⟩
  | cons h handles ih =>
    obtain _ | @⟨id, _, ids, _, hat, hall⟩ := hall
    obtain ⟨w₁, hresolve, hloaded⟩ := resolve_run hw hc h (Record.property name)
    have hrun : (property? h name).run w = _ := hresolve
    unfold havingProperty
    rw [run_bind, hrun]
    -- The handle is resident, so whether it bears the property is told by its copy.
    have hbears : w.bears name wanted id =
        match w.ascent (Record.property name) (w.session.copyOf h).record with
        | .ok found => sought found wanted
        | .error _ => false := by
      rw [World.bears, hat.seen]
    cases hascent : w.ascent (Record.property name) (w.session.copyOf h).record with
    | error e =>
      obtain ⟨other, hother⟩ := ascend_error hascent
      exact ⟨_, w₁, rfl, hloaded, other, e, hother⟩
    | ok value =>
      obtain ⟨result, w₂, hmore, hloaded₂, hresult⟩ := ih hloaded.coherent
        (hloaded.connected.trans hc) (hall.imp fun _ _ => hloaded.stays _ _)
      have htrans := hloaded.trans hloaded₂
      rw [hascent] at hbears
      rw [hloaded.bears hw, hloaded.seen] at hresult
      dsimp only [Except.mapError] at hbears ⊢
      rw [run_bind, hmore]
      cases result with
      | error e => exact ⟨_, w₂, rfl, htrans, hresult⟩
      | ok found =>
        refine ⟨.ok (if sought value wanted then h :: found else found), w₂, rfl, htrans, ?_⟩
        dsimp only at hresult ⊢
        rw [List.filter_cons, hbears]
        split
        · exact .cons (htrans.stays _ _ hat) hresult
        · exact hresult

/-- A property is found through a handle that was loaded just if it is found along what is seen. -/
theorem finds_iff (hw : w.Coherent) (hc : w.drained.isConnected = true) {name : String}
    {wanted : Option Value} {id : ObjectId} : w.Finds name wanted id ↔
      w.view.shows false id = true ∧ w.bears name wanted id = true := by
  rw [← loads_iff hw hc]
  obtain ⟨result, w₁, hload, hloaded, hgives⟩ := loadWith_run hw hc false id
  rw [Finds, Loads, load, hload]
  rcases result with e | _ | g
  · exact ⟨fun ⟨_, _, _, _, h, _⟩ => (nomatch (Prod.mk.inj h).1),
      fun ⟨⟨_, _, h⟩, _⟩ => (nomatch (Prod.mk.inj h).1)⟩
  · exact ⟨fun ⟨_, _, _, _, h, _⟩ => (nomatch (Prod.mk.inj h).1),
      fun ⟨⟨_, _, h⟩, _⟩ => (nomatch (Prod.mk.inj h).1)⟩
  · generalize hseen : w.seen id = seen at hgives
    obtain _ | _ | _ | @⟨c, -, _, hat⟩ := hgives
    have hcopy : w₁.session.copyOf g = c := hat.copy_eq ((congrFun hloaded.seen _).trans hseen)
    have hid : w.seen c.record.id ≠ .ok none := by
      rw [seen_id hw hseen, hseen]
      exact nofun
    -- Loading the object has not changed what is found along its chain.
    obtain ⟨w₂, hget, -⟩ := resolve_run hloaded.coherent (hloaded.connected.trans hc) g
      (Record.property name)
    rw [hcopy, ascent_congr hw hloaded.coherent hloaded.seen _ hid] at hget
    have hget : (property? g name).run w₁ = _ := hget
    rw [bears, hseen]
    dsimp only
    constructor
    · rintro ⟨_, _, v, w₃, ⟨⟩, hv, hwanted⟩
      refine ⟨⟨g, w₁, rfl⟩, ?_⟩
      rw [hget] at hv
      cases hascent : w.ascent (Record.property name) c.record with
      | error e => rw [hascent] at hv; cases hv
      | ok found =>
        rw [hascent] at hv
        cases hv
        exact sought_iff.mpr ⟨v, rfl, hwanted⟩
    · rintro ⟨-, hbears⟩
      cases hascent : w.ascent (Record.property name) c.record with
      | error e => rw [hascent] at hbears; cases hbears
      | ok found =>
        rw [hascent] at hbears hget
        obtain ⟨v, rfl, hwanted⟩ := sought_iff.mp hbears
        exact ⟨g, w₁, v, w₂, rfl, hget, hwanted⟩

/-! ## Scanning -/

/-- No object ever gets a negative number. -/
theorem natural_followed :
    Followed (fun _ => True) (fun _ _ => True) Store.Natural where
  moves := by
    rintro s t hmove hs id hid
    cases hmove with
    | apart hnext hplace => exact hs id (hplace id trivial ▸ hid)
    | created n parent hn hfirst hnext hsucc hnew hparent hplace =>
      rw [hplace id trivial] at hid
      split at hid
      · rename_i hnew
        exact hnew ▸ hfirst
      · exact hs id hid
    | recycled other p _ hold hnext hplace =>
      rw [hplace id trivial] at hid
      split at hid
      · rename_i hother
        exact hs id (by rw [hother, hold]; exact nofun)
      · exact hs id hid
    | placed other p parent _ hold hparent hnext hclear hplace =>
      rw [hplace id trivial] at hid
      split at hid
      · rename_i hother
        exact hs id (by rw [hother, hold]; exact nofun)
      · exact hs id hid
  nothing _ := trivial
  still _ h := h
  stored _ _ _ := trivial
  nowhere _ s hs := Classical.byContradiction fun h => absurd (hs .nothing h) (by decide)

variable {k : Nat} (hw : Placed (fun _ => True) Store.Natural k w) (hc : w.Coherent)
  (hopen : w.store.isConnected = true)
include hw hc hopen

/-- An object is wanted in a listing of the store if it is seen, and wanted as it is seen. -/
theorem wanted_of_shows {recycledToo : Bool} {id : ObjectId}
    (h : w.view.shows recycledToo id = true) : w.drained.Wanted recycledToo id := by
  have hwriting : w.session.writing = true := Classical.byContradiction fun hstopped => by
    rw [(hw.inStep.stopped (Bool.not_eq_true _ ▸ hstopped)).1] at hopen
    cases hopen
  have hseen : w.view.seen id = w.seen id := rfl
  rw [View.shows] at h
  split at h
  · rename_i c hcopy
    -- What is seen of an object agrees with its header once the waiting writes have been applied.
    have hplace := (hw.inStep.place_seen hc hw.own hwriting trivial).2 c (hseen.symm.trans hcopy)
    rw [← (hw.inStep.settled hc hw.own).1 id trivial] at hplace
    exact ⟨_, hplace, Store.wanted_iff.mp h⟩
  · cases h

/-- A listing gives the objects that are seen and wanted. -/
theorem list_shows (recycledToo : Bool) :
    ∃ result w', (list recycledToo).run w = (result, w') ∧ Loaded w w' ∧
      match result with
      | .error _ => ∃ id, w.drained.Blotted id
      | .ok handles => ∃ ids, List.Forall₂ w'.At ids handles ∧ Increasing ids ∧
          ∀ id, id ∈ ids ↔ w.view.shows recycledToo id = true := by
  have hdrained : w.drained.isConnected = true := (drained_frame hc).1.trans hopen
  have hordered : w.drained.Ordered := (drained_frame hc).2.1 hw.numbered.store.ordered
  have hown : w.drained.Own := hw.own.drained hc
  obtain ⟨result, w', hrun, hloaded, hlists⟩ := list_run hc hdrained hordered recycledToo
  have hsame : (Store.list recycledToo w.view.store).1 = (Store.list recycledToo w.drained).1 :=
    w.drained_same.list recycledToo
  refine ⟨result, w', hrun, hloaded, ?_⟩
  rw [View.listed, hsame] at hlists
  cases hlist : (Store.list recycledToo w.drained).1 with
  | error e =>
    rw [hlist] at hlists
    obtain rfl : result = .error (.persistence e) := hlists
    obtain ⟨id, -, -, hblot, -⟩ :=
      (Store.list_error_iff hown hordered hdrained recycledToo).mp ⟨e, hlist⟩
    exact ⟨id, hblot⟩
  | ok records =>
    rw [hlist] at hlists
    obtain ⟨handles, rfl, hall⟩ := hlists
    obtain ⟨hincreasing, hmem⟩ := Store.list_ids hown (drained_faithful hc) hordered
      (Placed.kept_drained natural_followed hw hc) hdrained hlist
    refine ⟨_, hall, hincreasing.filter _, fun id => ?_⟩
    -- Copies win over what is listed, so it is left to show that whatever is seen is listed.
    rw [List.mem_filter, and_iff_right_iff_imp]
    exact fun h => (hmem id).mpr (wanted_of_shows hw hc hopen h)

theorem list_scans (recycledToo : Bool) : w.Scans (list recycledToo) (w.Loads recycledToo) := by
  have hdrained : w.drained.isConnected = true := (drained_frame hc).1.trans hopen
  obtain ⟨result, w', hrun, hloaded, hresult⟩ := list_shows hw hc hopen recycledToo
  cases result with
  | error e =>
    rw [Scans, hrun]
    exact hresult
  | ok handles =>
    obtain ⟨ids, hall, hincreasing, hmem⟩ := hresult
    exact scans_of_at hrun hloaded.coherent hall hincreasing fun id =>
      (hmem id).trans (loads_iff hc hdrained).symm

/-- An object that can be loaded, because it is in memory, and whose stored record cannot be read makes
a listing fail. -/
theorem list_fails {recycledToo : Bool} {id : ObjectId} (hloads : w.Loads recycledToo id)
    (hblot : w.drained.Blotted id) : ∃ e w', (list recycledToo).run w = (.error e, w') := by
  have hdrained : w.drained.isConnected = true := (drained_frame hc).1.trans hopen
  have hordered : w.drained.Ordered := (drained_frame hc).2.1 hw.numbered.store.ordered
  obtain ⟨p, hplace, hwanted⟩ := wanted_of_shows hw hc hopen ((loads_iff hc hdrained).mp hloads)
  obtain ⟨e, he⟩ := (Store.list_error_iff (hw.own.drained hc) hordered hdrained recycledToo).mpr
    ⟨id, p, hplace, hblot, hwanted⟩
  obtain ⟨result, w', hrun, -, hlists⟩ := list_run hc hdrained hordered recycledToo
  rw [View.listed, show (Store.list recycledToo w.view.store).1 = _ from w.drained_same.list recycledToo,
    he] at hlists
  obtain rfl : result = .error (.persistence e) := hlists
  exact ⟨_, w', hrun⟩

theorem findByProperty_scans (name : String) (wanted : Option Value) :
    w.Scans (findByProperty name wanted) (w.Finds name wanted) := by
  have hdrained : w.drained.isConnected = true := (drained_frame hc).1.trans hopen
  obtain ⟨result, w₁, hlist, hloaded, hresult⟩ := list_shows hw hc hopen false
  have hscan : (findByProperty name wanted).run w =
      ((list false >>= havingProperty name wanted : Action (List Handle))).run w := rfl
  rw [run_bind, hlist] at hscan
  cases result with
  | error e =>
    rw [Scans, hscan]
    exact hresult
  | ok handles =>
    obtain ⟨ids, hall, hincreasing, hmem⟩ := hresult
    -- The chains are followed in the world after the listing, in which the same is seen.
    obtain ⟨result, w₂, hhaving, hloaded₂, hfound⟩ := havingProperty_run hloaded.coherent
      (hloaded.connected.trans hdrained) name wanted hall
    have hrun : (findByProperty name wanted).run w = (result, w₂) := hscan.trans hhaving
    rw [hloaded.seen, hloaded.bears hc] at hfound
    cases result with
    | error e =>
      obtain ⟨id, e', hseen⟩ := hfound
      rw [Scans, hrun]
      exact ⟨id, blotted_of_seen hc hw.own hseen⟩
    | ok found =>
      refine scans_of_at hrun hloaded₂.coherent hfound (hincreasing.filter _) fun id => ?_
      rw [List.mem_filter, hmem, finds_iff hc hdrained]

omit hw hc hopen

/-- Whatever has happened to a store that was empty and that nobody else edits, and as long as parents
are changed through resident copies: what is listed is what can be loaded, and what is found is
what can be loaded and has the property.  A scan fails only if a record is stored that cannot be
read, as it never is in memory. -/
theorem Leads.scans_agree {s : Store} (hs : s = .memory {} ∨ s = .durable {})
    (runtime : RuntimeSettings) {n : Nat} {w : World}
    (hrun : Leads (Operation.Permitted (fun _ _ => True) (Resident fun _ => True)) n
      ((openSession runtime).run (initial s runtime)).2 w)
    (hnumbers : n < 2 ^ 63) (hopen : w.store.isConnected = true) :
    (∀ recycledToo, w.Scans (list recycledToo) (w.Loads recycledToo)) ∧
      ∀ name wanted, w.Scans (findByProperty name wanted) (w.Finds name wanted) := by
  obtain ⟨hc, hstart⟩ := Placed.start (S := fun _ => True) (Φ := Store.Natural) hs hnumbers runtime
    fun hnone id hid => absurd (hnone id) hid
  rw [← Nat.zero_add n] at hstart
  have hw := natural_followed.upheld.leads hrun hc hstart
  exact ⟨list_scans hw (hrun.coherent hc) hopen, findByProperty_scans hw (hrun.coherent hc) hopen⟩

/-- The root, changed and not yet saved, and two children of it: one that is not in memory, and one that
is recycled. -/
def mottled : World :=
  (Operation.setProperty ⟨0⟩ "colour" (.str "red")).after
    ((Operation.recycle ⟨2⟩).after ((Operation.invalidate ⟨1⟩).after
      ((Operation.create .root {} {}).after parented)))

theorem mottled_leads : Leads (Operation.Permitted (fun _ _ => True) (Resident fun _ => True)) 3
    ((openSession {}).run (initial (.memory {}) {})).2 mottled := by
  have hopened : Leads (Operation.Permitted (fun _ _ => True) (Resident fun _ => True)) 0 _ _ :=
    .refl ((openSession {}).run (initial (.memory {}) {})).2
  have hcreated := ((hopened.next (.operate .ensureRoot) ⟨nofun, trivial⟩).next
    (.operate (.create .root {} {})) ⟨nofun, trivial⟩).next
    (.operate (.create .root {} {})) ⟨nofun, trivial⟩
  have hrecycled := (hcreated.next (.operate (.invalidate ⟨1⟩)) ⟨nofun, trivial⟩).next
    (.operate (.recycle ⟨2⟩)) ⟨nofun, trivial⟩
  refine hrecycled.next (.operate (.setProperty ⟨0⟩ "colour" (.str "red"))) ⟨fun h hh => ?_, trivial⟩
  cases hh
  show 0 < _
  decide +kernel

/-- The ids that a search gives. -/
def idsFound (name : String) (wanted : Option Value) (w : World) : Option (List ObjectId) :=
  match (findByProperty name wanted).run w with
  | (.ok handles, w') => some (w'.idsOf handles)
  | (.error _, _) => none

theorem Scans.mem_iff {name : String} {wanted : Option Value} {w : World} {P : ObjectId → Prop}
    (hscans : w.Scans (findByProperty name wanted) P) {ids : List ObjectId}
    (hids : idsFound name wanted w = some ids) (id : ObjectId) : id ∈ ids ↔ P id := by
  rw [idsFound] at hids
  rw [Scans] at hscans
  generalize (findByProperty name wanted).run w = result at hids hscans
  rcases result with ⟨e | handles, w'⟩
  · cases hids
  · cases hids
    exact hscans.2 id

-- Only the kernel computes with this world.
attribute [local irreducible] mottled

/-- The root and the child that is not recycled have the property, and loading finds it there. -/
theorem Leads.scans_agree_mottled :
    idsFound "colour" (some (.str "red")) mottled = some [⟨0⟩, ⟨1⟩] ∧
      ∀ id, id ∈ [ObjectId.mk 0, ⟨1⟩] ↔ mottled.Finds "colour" (some (.str "red")) id := by
  have hids : idsFound "colour" (some (.str "red")) mottled = some [⟨0⟩, ⟨1⟩] := by decide +kernel
  have hopen : mottled.store.isConnected = true := by decide +kernel
  obtain ⟨-, hscans⟩ := scans_agree (.inl rfl) {} mottled_leads (by decide) hopen
  exact ⟨hids, (hscans "colour" (some (.str "red"))).mem_iff hids⟩

end World

end Lineage
