/-
  Lineage.Proofs.World.Alike

  Worlds that look the same by the ids of their objects.

  Two worlds are alike when their views are the same (`World.Alike`), wherever the copies
  come from that are seen in them.  No operation that scripts are made of can tell alike
  worlds apart (`alike_lockstep`), as long as new objects get numbers that are not in use
  (`View.Roomy`).
-/
import Lineage.Proofs.World.LockstepRuns
import Lineage.Proofs.World.Parents
import Lineage.Proofs.World.Ascent

namespace Lineage

-- Nothing here depends on what the compiler makes of a source.
attribute [local irreducible] Program.compile

/-- The next `k` objects get numbers under which nothing is seen, and each its own. -/
structure View.Roomy (v : View) (k : Nat) : Prop where
  connected : v.store.isConnected = true
  ordered : v.store.Ordered
  fits : ∀ n, v.store.next = .ok n → n.toInt + k < 2 ^ 63
  unused : ∀ n, v.store.next = .ok n → ∀ id : ObjectId, n.toInt ≤ id.number.toInt →
    v.seen id = .ok none ∧ v.store.read id = .ok none

namespace View.Roomy

variable {v : View} {k : Nat} {id : ObjectId}

theorem less (hv : v.Roomy (k + 1)) : v.Roomy k :=
  ⟨hv.connected, hv.ordered, fun n hn => by
    have hfits := hv.fits n hn
    omega, hv.unused⟩

theorem put (hv : v.Roomy k) (hid : v.seen id ≠ .ok none) (c : Copy) : (v.put id c).Roomy k := by
  refine ⟨hv.connected, hv.ordered, hv.fits, fun n hn other hother => ⟨?_, (hv.unused n hn other hother).2⟩⟩
  have hunused := (hv.unused n hn other hother).1
  have hne : other ≠ id := by
    rintro rfl
    exact hid hunused
  show (if other = id then _ else _) = _
  rw [if_neg hne, hunused]

theorem write (hv : v.Roomy k) (hf : v.store.Faithful) (id : ObjectId) (u : Update) :
    (v.write id u).Roomy k := by
  have hsame := (Store.update id u v.store).2.uncounted_same
  have hwrote := Store.update_wrote hf id u
  have hnext : (v.write id u).store.next = v.store.next :=
    hsame.next.trans (Store.next_update id u v.store)
  refine ⟨hsame.isConnected.trans (hwrote.connected.trans hv.connected),
    hsame.ordered.mpr (hwrote.ordered hv.ordered), fun n hn => hv.fits n (hnext ▸ hn),
    fun n hn other hother => ?_⟩
  obtain ⟨hseen, hread⟩ := hv.unused n (hnext ▸ hn) other hother
  exact ⟨hseen, (congrFun hsame.read other).trans (Store.read_update_absent hf hread id u)⟩

theorem drop (hv : v.Roomy k) (id : ObjectId) : (v.drop id).Roomy k := by
  refine ⟨hv.connected, hv.ordered, hv.fits, fun n hn other hother => ?_⟩
  obtain ⟨hseen, hread⟩ := hv.unused n hn other hother
  refine ⟨?_, hread⟩
  show (if other = id then v.store.fresh id else _) = _
  split
  · rename_i heq
    rw [← heq, Store.fresh, hread]
    rfl
  · exact hseen

theorem saved (hv : v.Roomy k) (hf : v.store.Faithful) (hid : v.seen id ≠ .ok none) (c : Copy) :
    (v.saved id c).2.Roomy k := by
  unfold View.saved
  dsimp only
  split
  · exact hv
  · split
    · split
      · exact (hv.put hid _).write hf _ _
      · exact (hv.put hid _).write hf _ _
    · exact hv.put hid _

theorem savedLater (hv : v.Roomy k) (hf : v.store.Faithful) (hid : v.seen id ≠ .ok none) (c : Copy) :
    (v.savedLater id c).Roomy k := by
  unfold View.savedLater
  split
  · exact hv
  · split
    · exact (hv.put hid _).write hf _ _
    · exact hv.put hid _

/-- A new object takes one of the numbers. -/
theorem add (hv : v.Roomy (k + 1)) (hf : v.store.Faithful) {n : Int64} (hn : v.store.next = .ok n)
    (r : Record) : (v.add n r).Roomy k := by
  obtain ⟨s, hcreate, hwrote, hnext⟩ := Store.create_run hv.connected hf hn r
  have hadd : (v.add n r).store = s.uncounted := by
    rw [View.add, hcreate]
  have hsame : (v.add n r).store.Same s := hadd ▸ s.uncounted_same
  have hfits := hv.fits n hn
  have hsucc : (n + 1).toInt = n.toInt + 1 := by
    have hone : (1 : Int64).toInt = 1 := rfl
    have hle := n.le_toInt
    rw [Int64.toInt_add, hone, Int.bmod_def]
    omega
  have hnext' : ∀ m, (v.add n r).store.next = .ok m → m = n + 1 := by
    intro m hm
    rw [hsame.next, hnext] at hm
    exact (Except.ok.inj hm).symm
  refine ⟨hsame.isConnected.trans (hwrote.connected.trans hv.connected),
    hsame.ordered.mpr (hwrote.ordered hv.ordered), fun m hm => ?_, fun m hm other hother => ?_⟩
  · rw [hnext' m hm, hsucc]
    omega
  · rw [hnext' m hm, hsucc] at hother
    obtain ⟨hseen, hread⟩ := hv.unused n hn other (by omega)
    have hne : other ≠ ⟨n⟩ := by
      rintro rfl
      dsimp only at hother
      omega
    refine ⟨?_, (congrFun hsame.read other).trans ((hwrote.others other hne).trans hread)⟩
    show (if other = ⟨n⟩ then _ else _) = _
    rw [if_neg hne, hseen]

end View.Roomy

namespace World

/-- Worlds that look the same, in which `k` objects can still be created. -/
structure Alike (k : Nat) (w w' : World) : Prop where
  left : w.Coherent
  right : w'.Coherent
  view : w'.view = w.view
  roomy : w.view.Roomy k

/-- Handles on the resident copies of the same object. -/
def Shared (h h' : Handle) (w w' : World) : Prop := ∃ id, w.At id h ∧ w'.At id h'

namespace Alike

variable {k : Nat} {w w' : World}

theorem connected (hw : Alike k w w') : w.drained.isConnected = true :=
  (w.drained_same.isConnected).symm.trans hw.roomy.connected

theorem symm (hw : Alike k w w') : Alike k w' w :=
  ⟨hw.right, hw.left, hw.view.symm, hw.view ▸ hw.roomy⟩

theorem seen (hw : Alike k w w') : w'.seen = w.seen := congrArg View.seen hw.view

theorem copies {h h' : Handle} (hw : Held (Alike k) Shared h h' w w') :
    w.session.copyOf h = w'.session.copyOf h' := by
  obtain ⟨hw, id, hat, hat'⟩ := hw
  exact (hat'.copy_eq ((congrFun hw.seen id).trans hat.seen)).symm

theorem faithful (hw : Alike k w w') : w.view.store.Faithful :=
  w.drained_same.faithful.mpr (drained_faithful hw.left)

/-- Bringing objects into memory leaves worlds alike. -/
theorem loaded (hw : Alike k w w') {w₁ w₁' : World} (h : Loaded w w₁) (h' : Loaded w' w₁') :
    Alike k w₁ w₁' :=
  ⟨h.coherent, h'.coherent, h'.view.trans (hw.view.trans h.view.symm), h.view ▸ hw.roomy⟩

theorem less (hw : Alike (k + 1) w w') : Alike k w w' :=
  ⟨hw.left, hw.right, hw.view, hw.roomy.less⟩

theorem load (recycledToo : Bool) (id : ObjectId) : Matches (Alike k) (loadWith recycledToo id)
    (loadWith recycledToo id) (Found (Alike k) Shared) (Alike k) := by
  intro w w' hw
  obtain ⟨result, w₁, hrun, hloaded, hgives⟩ := loadWith_run hw.left hw.connected recycledToo id
  obtain ⟨result', w₁', hrun', hloaded', hgives'⟩ :=
    loadWith_run hw.right hw.symm.connected recycledToo id
  have hafter := hw.loaded hloaded hloaded'
  rw [hrun, hrun']
  rw [hw.seen] at hgives'
  generalize w.seen id = seen at hgives hgives'
  cases hgives with
  | failed e =>
    cases hgives'
    exact ⟨rfl, hafter⟩
  | missing =>
    cases hgives'
    exact hafter
  | recycled hskip =>
    cases hgives' with
    | recycled => exact hafter
    | found hkeep => rw [hskip] at hkeep; cases hkeep
  | found hkeep hat =>
    cases hgives' with
    | recycled hskip => rw [hskip] at hkeep; cases hkeep
    | found _ hat' => exact ⟨hafter, id, hat, hat'⟩

theorem object (id : ObjectId) :
    Matches (Alike k) (object id) (object id) (Held (Alike k) Shared) (Alike k) :=
  (load false id).found (.throw _ fun _ _ hw => hw) fun _ _ => .pure fun _ _ hw => hw

/-- Handles on the same objects, one by one. -/
theorem pairs {ids : List ObjectId} {handles handles' : List Handle}
    (h : List.Forall₂ w.At ids handles) (h' : List.Forall₂ w'.At ids handles') :
    ∃ pairs : List (Handle × Handle), handles = pairs.map Prod.fst ∧ handles' = pairs.map Prod.snd ∧
      ∀ p ∈ pairs, Shared p.1 p.2 w w' := by
  induction h generalizing handles' with
  | nil =>
    cases h'
    exact ⟨[], rfl, rfl, nofun⟩
  | @cons id g ids handles hat _ ih =>
    obtain _ | ⟨hat', hrest'⟩ := h'
    rename_i g' handles'
    obtain ⟨pairs, rfl, rfl, hshared⟩ := ih hrest'
    refine ⟨(g, g') :: pairs, rfl, rfl, fun p hp => ?_⟩
    rcases List.mem_cons.mp hp with rfl | hp
    · exact ⟨id, hat, hat'⟩
    · exact hshared p hp

theorem list (recycledToo : Bool) : Matches (Alike k) (list recycledToo) (list recycledToo)
    (Listed (Alike k) Shared []) (Alike k) := by
  intro w w' hw
  have hordered : w.drained.Ordered := w.drained_same.ordered.mp hw.roomy.ordered
  have hordered' : w'.drained.Ordered := w'.drained_same.ordered.mp hw.symm.roomy.ordered
  obtain ⟨result, w₁, hrun, hloaded, hlists⟩ := list_run hw.left hw.connected hordered recycledToo
  obtain ⟨result', w₁', hrun', hloaded', hlists'⟩ :=
    list_run hw.right hw.symm.connected hordered' recycledToo
  have hafter := hw.loaded hloaded hloaded'
  rw [hrun, hrun']
  rw [hw.view] at hlists'
  generalize w.view.listed recycledToo = listed at hlists hlists'
  cases listed with
  | error e =>
    obtain rfl : result = _ := hlists
    obtain rfl : result' = _ := hlists'
    exact ⟨rfl, hafter⟩
  | ok ids =>
    obtain ⟨handles, rfl, hall⟩ := hlists
    obtain ⟨handles', rfl, hall'⟩ := hlists'
    obtain ⟨pairs, rfl, rfl, hshared⟩ := pairs hall hall'
    exact ⟨pairs, rfl, rfl, hafter, fun p hp => hshared p (List.append_nil pairs ▸ hp)⟩

theorem resolve {α : Type} (probe : Record → Option α) (h h' : Handle)
    (more : List (Handle × Handle)) :
    Matches (HeldAll (Alike k) Shared ((h, h') :: more)) (resolve h probe) (resolve h' probe)
      (Equally (HeldAll (Alike k) Shared ((h, h') :: more))) (Alike k) := by
  rintro w w' ⟨hw, hshared⟩
  obtain ⟨id, hat, hat'⟩ := hshared (h, h') List.mem_cons_self
  obtain ⟨w₁, hrun, hloaded⟩ := resolve_run hw.left hw.connected h probe
  obtain ⟨w₁', hrun', hloaded'⟩ := resolve_run hw.right hw.symm.connected h' probe
  have hafter := hw.loaded hloaded hloaded'
  rw [← copies ⟨hw, id, hat, hat'⟩, ascent_congr hw.left hw.right hw.seen _
    (seen_ne_none hw.left hat.seen)] at hrun'
  rw [hrun, hrun']
  cases w.ascent probe (w.session.copyOf h).record with
  | error e => exact ⟨rfl, hafter⟩
  | ok found =>
    refine ⟨rfl, hafter, fun p hp => ?_⟩
    obtain ⟨other, hother, hother'⟩ := hshared p hp
    exact ⟨other, hloaded.stays _ _ hother, hloaded'.stays _ _ hother'⟩

theorem compiled (definer : ObjectId) (name : String) :
    Agree (Alike k) (compiledMethod definer name) := by
  intro w w' hw
  obtain ⟨w₁, hrun, hloaded⟩ := compiledMethod_run hw.left hw.connected definer name
  obtain ⟨w₁', hrun', hloaded'⟩ := compiledMethod_run hw.right hw.symm.connected definer name
  have hafter := hw.loaded hloaded hloaded'
  rw [hrun, hrun', hw.view]
  cases w.view.compiled definer name with
  | error e => exact ⟨rfl, hafter⟩
  | ok p => exact ⟨rfl, hafter⟩

/-! ## Changes -/

/-- Worlds that are viewed alike after both have changed. -/
theorem turned {w₁ w₁' : World} {v v' : View} (h : Turns w v w₁) (h' : Turns w' v' w₁')
    (hv : v' = v) (hroomy : v.Roomy k) : Alike k w₁ w₁' :=
  ⟨h.coherent, h'.coherent, h'.view.trans (hv.trans h.view.symm), h.view.symm ▸ hroomy⟩

/-- What becomes of the copies of an object, when what becomes of them depends on the view. -/
theorem amend (h h' : Handle) {f : Copy → Copy} (hid : ∀ c, (f c).record.id = c.record.id)
    (hmethods : ∀ c, (f c).record.methods = c.record.methods) :
    Twins (Held (Alike k) Shared h h') (onCopy h f) (onCopy h' f) fun _ _ =>
      Held (Alike k) Shared h h' := by
  rintro w w' ⟨hw, id, hat, hat'⟩
  have hturns := amended_turns hat hw.left hid hmethods
  have hturns' := amended_turns hat' hw.right hid hmethods
  rw [← copies ⟨hw, id, hat, hat'⟩, hw.view] at hturns'
  exact ⟨turned hturns hturns' rfl (hw.roomy.put hat.seen_ne _), id, hat, hat'⟩

theorem setProperty (h h' : Handle) (name : String) (v : Value) :
    Twins (Held (Alike k) Shared h h') (setProperty h name v) (setProperty h' name v) fun _ _ =>
      Held (Alike k) Shared h h' :=
  .bind (amend h h' (fun _ => rfl) fun _ => rfl) fun _ _ => amend h h' (fun _ => rfl) fun _ => rfl

theorem setMethod (h h' : Handle) (name : String) (m : MethodDef) :
    Twins (Held (Alike k) Shared h h') (setMethod h name m) (setMethod h' name m) fun _ _ =>
      Held (Alike k) Shared h h' := by
  rintro w w' ⟨hw, id, hat, hat'⟩
  obtain ⟨w₁, hrun, hturns⟩ := setMethod_run hat hw.left name m
  obtain ⟨w₁', hrun', hturns'⟩ := setMethod_run hat' hw.right name m
  rw [← copies ⟨hw, id, hat, hat'⟩, hw.view] at hturns'
  rw [hrun, hrun']
  exact ⟨turned hturns hturns' rfl (hw.roomy.put hat.seen_ne _), id, hturns.stays _ _ hat,
    hturns'.stays _ _ hat'⟩

theorem removeMethod (h h' : Handle) (name : String) : Twins (Held (Alike k) Shared h h')
    (removeMethod h name) (removeMethod h' name) (Equally (Held (Alike k) Shared h h')) := by
  rintro w w' ⟨hw, id, hat, hat'⟩
  obtain ⟨w₁, hrun, hturns⟩ := removeMethod_run hat hw.left name
  obtain ⟨w₁', hrun', hturns'⟩ := removeMethod_run hat' hw.right name
  rw [← copies ⟨hw, id, hat, hat'⟩] at hrun'
  rw [← copies ⟨hw, id, hat, hat'⟩, hw.view] at hturns'
  rw [hrun, hrun']
  refine ⟨rfl, turned hturns hturns' rfl ?_, id, hturns.stays _ _ hat, hturns'.stays _ _ hat'⟩
  split
  · exact hw.roomy.put hat.seen_ne _
  · exact hw.roomy

theorem save (h h' : Handle) : Matches (Held (Alike k) Shared h h') (save h) (save h')
    (Equally (Alike k)) (Alike k) := by
  rintro w w' ⟨hw, id, hat, hat'⟩
  obtain ⟨w₁, hrun, hturns⟩ := save_run hat hw.left
  obtain ⟨w₁', hrun', hturns'⟩ := save_run hat' hw.right
  rw [← copies ⟨hw, id, hat, hat'⟩, hw.view] at hrun' hturns'
  have hafter := turned hturns hturns' rfl (hw.roomy.saved hw.faithful hat.seen_ne _)
  rw [hrun, hrun']
  cases (w.view.saved id (w.session.copyOf h)).1 with
  | error e => exact ⟨rfl, hafter⟩
  | ok b => exact ⟨rfl, hafter⟩

theorem saveLater (h h' : Handle) : Twins (Held (Alike k) Shared h h') (saveLater h) (saveLater h')
    fun _ _ => Alike k := by
  rintro w w' ⟨hw, id, hat, hat'⟩
  obtain ⟨w₁, hrun, hturns⟩ := saveLater_run hat hw.left
  obtain ⟨w₁', hrun', hturns'⟩ := saveLater_run hat' hw.right
  rw [← copies ⟨hw, id, hat, hat'⟩, hw.view] at hturns'
  rw [hrun, hrun']
  exact turned hturns hturns' rfl (hw.roomy.savedLater hw.faithful hat.seen_ne _)

theorem invalidate (id : ObjectId) :
    Twins (Alike k) (invalidate id) (invalidate id) fun _ _ => Alike k := by
  intro w w' hw
  have hview := (view_dropping hw.left id).symm
  refine ⟨invalidate_keeps id w hw.left, invalidate_keeps id w' hw.right, ?_, ?_⟩
  · show World.view { w' with session := w'.session.dropping id } =
      World.view { w with session := w.session.dropping id }
    rw [view_dropping hw.right, view_dropping hw.left, hw.view]
  · show (World.view { w with session := w.session.dropping id }).Roomy k
    rw [view_dropping hw.left]
    exact hw.roomy.drop id

theorem recycle (id : ObjectId) : Agree (Alike k) (recycle id) :=
  .bind (object id) fun h h' => .bind (.lift (amend h h' (fun _ => rfl) fun _ => rfl)) fun _ _ =>
    .bind (.lift (amend h h' (fun _ => rfl) fun _ => rfl)) fun _ _ =>
    .bindEq (save h h') fun _ => .lift ((invalidate id).mono fun _ _ _ _ hw => ⟨rfl, hw⟩)

/-- A new object gets the same number in both worlds. -/
theorem create (parent : ObjectId) (properties : OrderedDict String Value)
    (methods : OrderedDict String MethodDef) :
    Matches (Alike (k + 1)) (create parent properties methods) (create parent properties methods)
      (Held (Alike k) Shared) (Alike k) := by
  intro w w' hw
  have hclock : w'.clock = w.clock := congrArg View.clock hw.view
  have hnext : w.view.store.next = w.drained.next := w.drained_same.next
  have hnext' : w'.drained.next = w.drained.next :=
    w'.drained_same.next.symm.trans ((congrArg (fun v => v.store.next) hw.view).trans hnext)
  cases hn : w.drained.next with
  | error e =>
    obtain ⟨w₁, hrun, hloaded⟩ :=
      create_run_failed parent properties methods hw.left hw.connected hn
    obtain ⟨w₁', hrun', hloaded'⟩ :=
      create_run_failed parent properties methods hw.right hw.symm.connected (hnext'.trans hn)
    rw [hrun, hrun']
    exact ⟨rfl, hw.less.loaded hloaded hloaded'⟩
  | ok n =>
    have hfresh := (hw.roomy.unused n (hnext.trans hn) ⟨n⟩ (Int.le_refl _)).1
    obtain ⟨h, w₁, hrun, hat, hturns⟩ :=
      create_run parent properties methods hw.left hw.connected hn hfresh
    obtain ⟨h', w₁', hrun', hat', hturns'⟩ :=
      create_run parent properties methods hw.right hw.symm.connected (hnext'.trans hn)
        ((congrFun hw.seen _).trans hfresh)
    rw [hclock, hw.view] at hturns'
    rw [hrun, hrun']
    exact ⟨turned hturns hturns' rfl (hw.roomy.add hw.faithful (hnext.trans hn) _), _, hat, hat'⟩

/-- The parent of a new object is looked for first. -/
theorem createObject (parent : ObjectId) (properties : OrderedDict String Value) :
    Matches (Alike (k + 1)) (ScriptAction.createObject parent properties)
      (ScriptAction.createObject parent properties) (Equally (Alike k)) (Alike k) := by
  have hcreate : Matches (Alike (k + 1)) (do
      let h ← (World.create parent properties {}).forScript
      return .obj (← recordOf h).id : ScriptAction Value) (do
      let h ← (World.create parent properties {}).forScript
      return .obj (← recordOf h).id : ScriptAction Value) (Equally (Alike k)) (Alike k) :=
    .bind (create parent properties {}).forScript fun h h' => .bindEq (.lift (copyRecord h h'))
      fun _ => .pure fun _ _ hw => ⟨rfl, hw.1⟩
  have hload : Matches (Alike (k + 1)) (World.load parent).forScript (World.load parent).forScript
      (Found (Alike (k + 1)) Shared) (Alike k) :=
    ((load (k := k + 1) false parent).impl (fun _ _ hw => hw) (fun _ _ _ _ hw => hw)
      fun _ _ hw => hw.less).forScript
  unfold ScriptAction.createObject
  split
  · exact hload.found (.thrown _ fun _ _ hw => hw.less) fun _ _ => hcreate.weaken fun _ _ hw => hw.1
  · exact hcreate
where
  copyRecord (h h' : Handle) : Twins (Held (Alike k) Shared h h') (recordOf h) (recordOf h')
      (Equally (Held (Alike k) Shared h h')) :=
    fun _ _ hw => ⟨congrArg Copy.record (copies hw), hw⟩

theorem draw (limit : Int64) : Twins (Alike k) (ScriptAction.draw limit) (ScriptAction.draw limit)
    (Equally (Alike k)) := by
  intro w w' hw
  have hseed : w'.seed = w.seed := congrArg View.seed hw.view
  have hdrawn (seed : Nat) : Alike k { w with seed } { w' with seed } :=
    ⟨⟨hw.left.session, hw.left.store⟩, ⟨hw.right.session, hw.right.store⟩,
      congrArg (fun v => { v with seed }) hw.view,
      hw.roomy.connected, hw.roomy.ordered, hw.roomy.fits, hw.roomy.unused⟩
  unfold ScriptAction.draw
  dsimp only
  rw [hseed]
  exact ⟨rfl, hdrawn _⟩

theorem setParent (h h' : Handle) (parent : ObjectId) : Matches (Held (Alike k) Shared h h')
    (setParent h parent) (setParent h' parent) (Equally (Alike k)) (Alike k) := by
  rintro w w' ⟨hw, id, hat, hat'⟩
  have hverdict := verdict_congr hw.left hw.right hw.seen id parent
  cases hv : w.verdict id parent with
  | error e =>
    obtain ⟨w₁, hrun, hloaded⟩ := setParent_refused hat hw.left hw.connected hv
    obtain ⟨w₁', hrun', hloaded'⟩ :=
      setParent_refused hat' hw.right hw.symm.connected (hverdict.trans hv)
    rw [hrun, hrun']
    exact ⟨rfl, hw.loaded hloaded hloaded'⟩
  | ok _ =>
    obtain ⟨w₁, hrun, hturns⟩ := setParent_allowed hat hw.left hw.connected hv
    obtain ⟨w₁', hrun', hturns'⟩ :=
      setParent_allowed hat' hw.right hw.symm.connected (hverdict.trans hv)
    rw [← copies ⟨hw, id, hat, hat'⟩, hw.view] at hrun' hturns'
    have hroomy : (w.view.placed id (w.session.copyOf h) parent).2.Roomy k :=
      (hw.roomy.put hat.seen_ne _).saved hw.faithful (by
        show (if id = id then _ else _) ≠ _
        rw [if_pos rfl]
        exact nofun) _
    have hafter := turned hturns hturns' rfl hroomy
    rw [hrun, hrun']
    cases (w.view.placed id (w.session.copyOf h) parent).1 with
    | error e => exact ⟨rfl, hafter⟩
    | ok b => exact ⟨rfl, hafter⟩

theorem chparent (v parent : Value) (rest : List Value) :
    Agree (Alike k) (ScriptAction.builtin .chparent (v :: parent :: rest)) := by
  refine .bind (ScriptAction.objectOf_matches (load false) v) fun h h' => ?_
  have hid : Matches (Held (Alike k) Shared h h') (ScriptAction.idOf parent) (ScriptAction.idOf parent)
      (Equally (Held (Alike k) Shared h h')) (Alike k) :=
    (ScriptAction.idOf_agree parent).impl (fun _ _ hw => hw) (fun _ _ _ _ hw => hw) fun _ _ hw => hw.1
  exact hid.bindEq fun id => .bindEq (setParent h h' id).forScript fun _ =>
    .pure fun _ _ hw => ⟨rfl, hw⟩

end Alike

/-- No operation that scripts are made of can tell alike worlds apart. -/
theorem alike_lockstep : Lockstep Alike Shared fun _ _ => True where
  less := Alike.less
  settings hw := ⟨(congrArg View.runtime hw.view).symm, (congrArg View.clock hw.view).symm⟩
  copies := Alike.copies
  load _ id := Alike.load false id
  list _ := Alike.list
  resolve _ := Alike.resolve
  compiled _ := Alike.compiled
  setProperty _ := Alike.setProperty
  setMethod _ := Alike.setMethod
  removeMethod _ := Alike.removeMethod
  save _ := Alike.save
  saveLater _ := Alike.saveLater
  createObject _ := Alike.createObject
  recycle _ := Alike.recycle
  draw _ := Alike.draw
  chparent _ v parent rest := (Alike.chparent v parent rest).weaken fun _ _ hw => hw.1

end World

end Lineage
