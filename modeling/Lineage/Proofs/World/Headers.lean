/-
  Lineage.Proofs.World.Headers

  Where objects stand, in memory and in the store.

  An object's parent and its recycled flag are one path of its record.  As long as this
  path of an object is written through its resident copy alone, the resident copy stands
  where the stored object does, no other copy has a change of the path, and no write of it
  waits (`World.InStep`).  So what operations do to places is what they seem to do
  (`Move`): what all such moves keep is upheld (`InStep.upheld`).
-/
import Lineage.Proofs.World.Parents
import Lineage.Proofs.World.Numbering

namespace Lineage

-- Nothing here depends on what the compiler makes of a source, or on how a run goes.
attribute [local irreducible] Program.compile Machine.run

/-! ## What a change of a copy comes to -/

namespace Session

variable {s : Session} {h : Handle}

/-- A change of a copy is what it makes of that copy. -/
theorem change_congr {f g : Copy → Copy} (hfg : f (s.copyOf h) = g (s.copyOf h)) :
    s.change h f = s.change h g := by
  refine congrArg (fun copies => { s with copies }) (Array.ext_getElem? fun i => ?_)
  simp only [Array.getElem?_modify]
  split
  · rename_i hi
    subst hi
    cases hcopy : s.copies[h.index]? with
    | none => rfl
    | some c =>
      have hc : s.copyOf h = c := by
        rw [copyOf, Array.getD_eq_getD_getElem?, hcopy]
        rfl
      rw [hc] at hfg
      exact congrArg some hfg
  · rfl

theorem change_self (s : Session) (h : Handle) : s.change h (fun _ => s.copyOf h) = s := by
  have hid : s.change h (fun _ => s.copyOf h) = s.change h id := change_congr rfl
  rw [hid]
  refine congrArg (fun copies => { s with copies }) (Array.ext_getElem? fun i => ?_)
  simp only [Array.getElem?_modify]
  split
  · exact Option.map_id_apply
  · rfl

/-- Where there is no copy there is nothing to change. -/
theorem change_absent (hgiven : ¬s.Given h) (f : Copy → Copy) : s.change h f = s := by
  have hsize : s.copies.size ≤ h.index := Nat.le_of_not_lt hgiven
  refine congrArg (fun copies => { s with copies }) (Array.ext_getElem? fun i => ?_)
  simp only [Array.getElem?_modify]
  split
  · rename_i hi
    rw [← hi, Array.getElem?_eq_none hsize]
    rfl
  · rfl

/-- Where there is no copy nothing has to be written. -/
theorem clean_of_absent (hgiven : ¬s.Given h) : (s.copyOf h).dirty = {} := by
  have hsize : s.copies.size ≤ h.index := Nat.le_of_not_lt hgiven
  rw [copyOf, Array.getD_eq_getD_getElem?, Array.getElem?_eq_none hsize]
  rfl

end Session

/-! ## Moves -/

/-- The parent of a stored object. -/
def Store.ChildOf (s : Store) (id parent : ObjectId) : Prop :=
  ∃ p, s.place id = some p ∧ p.parent = parent

/-- How one operation changes where some objects stand.  New objects have allowed parents.  If it is
all objects that are looked at, then no object gets one of its descendants as a parent. -/
inductive Move (S : ObjectId → Prop) (A : ObjectId → Store → Prop) (s t : Store) : Prop
  | apart (hnext : t.next = s.next) (hplace : ∀ other, S other → t.place other = s.place other)
  | created (n : Int64) (parent : ObjectId) (hn : s.next = .ok n) (hfirst : 0 ≤ n.toInt)
      (hnext : t.next = .ok (n + 1)) (hsucc : (n + 1).toInt = n.toInt + 1)
      (hnew : s.place ⟨n⟩ = none) (hparent : A parent s)
      (hplace : ∀ other, S other →
        t.place other = if other = ⟨n⟩ then some ⟨parent, false⟩ else s.place other)
  | recycled (id : ObjectId) (p : Place) (hid : S id) (hold : s.place id = some p)
      (hnext : t.next = s.next) (hplace : ∀ other, S other →
        t.place other = if other = id then some { p with recycled := true } else s.place other)
  | placed (id : ObjectId) (p : Place) (parent : ObjectId) (hid : S id) (hold : s.place id = some p)
      (hparent : A parent s) (hnext : t.next = s.next)
      (hclear : (∀ other, S other) → parent ≠ .nothing → ¬Relation.ReflTransGen s.ChildOf parent id)
      (hplace : ∀ other, S other →
        t.place other = if other = id then some { p with parent } else s.place other)

namespace World

/-- Of the objects that are looked at, resident copies stand where they are stored, and nothing else
in memory has changes of where they stand. -/
structure InStep (S : ObjectId → Prop) (w : World) : Prop where
  stopped : w.session.writing = false → w.store.isConnected = false ∧ w.session.queue = []
  connected : w.session.writing = true → w.store.isConnected = true
  stored : w.session.All fun c => w.store.place c.record.id ≠ none
  clean : w.session.writing = true → w.session.All fun c => S c.record.id → c.dirty.header = false
  queue : ∀ job ∈ w.session.queue, S job.id → job.update.parent = none ∧ job.update.recycled = none
  residents : w.session.writing = true → ∀ id h, w.At id h → S id →
    w.store.place id = some (Place.ofRecord (w.session.copyOf h).record)

namespace InStep

variable {S : ObjectId → Prop} {w : World}

/-! ### What keeps memory and store in step -/

/-- The store is written, but not where stored objects stand that are looked at. -/
theorem moved (hw : w.InStep S) {s : Store} (hconnected : s.isConnected = w.store.isConnected)
    (hplace : ∀ id, S id → w.store.place id ≠ none → s.place id = w.store.place id)
    (hkept : ∀ id, w.store.place id ≠ none → s.place id ≠ none) : InStep S { w with store := s } where
  stopped hwriting := ⟨hconnected.trans (hw.stopped hwriting).1, (hw.stopped hwriting).2⟩
  connected hwriting := hconnected.trans (hw.connected hwriting)
  stored h hgiven := hkept _ (hw.stored h hgiven)
  clean := hw.clean
  queue := hw.queue
  residents hwriting id h hat hid := by
    have hold := hw.residents hwriting id h hat hid
    exact (hplace id hid (by rw [hold]; exact nofun)).trans hold

theorem same (hw : w.InStep S) {s : Store} (hs : s.Same w.store) : InStep S { w with store := s } :=
  hw.moved hs.isConnected (fun _ _ _ => congrFun hs.place _) fun id hid => by rwa [hs.place]

/-- A copy is changed, but neither where its object stands nor whether that has changes. -/
theorem changed (hw : w.InStep S) (h : Handle) {f : Copy → Copy}
    (hid : (f (w.session.copyOf h)).record.id = (w.session.copyOf h).record.id)
    (hplace : ∀ id, w.At id h → S id →
      Place.ofRecord (f (w.session.copyOf h)).record = Place.ofRecord (w.session.copyOf h).record)
    (hheader : (w.session.copyOf h).dirty.header = false → (f (w.session.copyOf h)).dirty.header = false) :
    InStep S { w with session := w.session.change h f } where
  stopped := hw.stopped
  connected := hw.connected
  stored := hw.stored.change h fun hgiven => by
    rw [hid]
    exact hw.stored h hgiven
  clean hwriting := (hw.clean hwriting).change h fun hgiven hS =>
    hheader (hw.clean hwriting h hgiven (hid ▸ hS))
  queue := hw.queue
  residents hwriting id g hat hS := by
    rw [hw.residents hwriting id g hat hS]
    show _ = some (Place.ofRecord ((w.session.change h f).copyOf g).record)
    by_cases hgh : g = h
    · subst hgh
      by_cases hgiven : w.session.Given g
      · rw [Session.copyOf_change_self hgiven, hplace id hat hS]
      · rw [Session.change_absent hgiven]
    · rw [Session.copyOf_change_ne hgh]

/-- Once nothing is written anymore, copies may be changed in every way. -/
theorem idle (hw : w.InStep S) (hwriting : w.session.writing = false) (h : Handle) {f : Copy → Copy}
    (hid : (f (w.session.copyOf h)).record.id = (w.session.copyOf h).record.id) :
    InStep S { w with session := w.session.change h f } where
  stopped := hw.stopped
  connected := hw.connected
  stored := hw.stored.change h fun hgiven => by
    rw [hid]
    exact hw.stored h hgiven
  clean h := absurd (hwriting.symm.trans h) Bool.false_ne_true
  queue := hw.queue
  residents h := absurd (hwriting.symm.trans h) Bool.false_ne_true

theorem adopted (hw : w.InStep S) (hc : w.Coherent) {r : Record}
    (hplace : w.store.place r.id = some (Place.ofRecord r)) :
    InStep S { w with session := w.session.adopting r } where
  stopped := hw.stopped
  connected := hw.connected
  stored := hw.stored.adopting (by rw [hplace]; exact nofun)
  clean hwriting := (hw.clean hwriting).adopting fun _ => rfl
  queue := hw.queue
  residents hwriting id h hat hS := by
    have hres : (w.session.resident.put r.id ⟨w.session.copies.size⟩).get? id = some h := hat
    show _ = some (Place.ofRecord ((w.session.adopting r).copyOf h).record)
    rw [Dict.get?_put] at hres
    split at hres
    · rename_i hid
      cases hres
      rw [hid, Session.copyOf_adopting_new]
      exact hplace
    · rw [Session.copyOf_adopting (hc.session.given id h hres)]
      exact hw.residents hwriting id h hres hS

theorem dropping (hw : w.InStep S) (hc : w.Coherent) (id : ObjectId) :
    InStep S { w with session := w.session.dropping id } where
  stopped := hw.stopped
  connected := hw.connected
  stored := hw.stored
  clean := hw.clean
  queue := hw.queue
  residents hwriting other h hat hS := by
    have hres : (w.session.dropping id).resident.get? other = some h := hat
    rw [Session.resident_dropping hc.session] at hres
    split at hres
    · cases hres
    · exact hw.residents hwriting other h hres hS

/-- A write that does not move what is looked at. -/
theorem updated (hw : w.InStep S) (hc : w.Coherent) (ho : w.Own) (id : ObjectId) {u : Update}
    (hu : u.Timed) (hunmoved : S id → u.parent = none ∧ u.recycled = none) :
    (∀ other, S other → (Store.update id u w.store).2.place other = w.store.place other) ∧
      InStep S { w with store := (Store.update id u w.store).2 } := by
  have hplace : ∀ other, S other → (Store.update id u w.store).2.place other = w.store.place other := by
    intro other hother
    by_cases heq : other = id
    · obtain ⟨hparent, hrecycled⟩ := hunmoved (heq ▸ hother)
      exact Store.place_update_unmoved ho.store id hu hparent hrecycled other
    · exact Store.place_update_ne ho.store heq hu
  exact ⟨hplace, hw.moved (Store.update_wrote hc.store id u).connected (fun other hS _ => hplace other hS)
    fun _ hother => Store.place_update_ne_none ho.store id hu hother⟩

theorem writeNext (hw : w.InStep S) (hc : w.Coherent) (ho : w.Own) :
    (∀ other, S other → w.writeNext.store.place other = w.store.place other) ∧
      w.writeNext.InStep S := by
  unfold World.writeNext
  cases hqueue : w.session.queue with
  | nil => exact ⟨fun _ _ => rfl, hw⟩
  | cons job rest =>
    have hmem : job ∈ w.session.queue := hqueue ▸ List.mem_cons_self
    obtain ⟨hplace, hupdated⟩ := hw.updated hc ho job.id (ho.queue job hmem) (hw.queue job hmem)
    refine ⟨hplace, fun hwriting => ?_, hupdated.connected, hupdated.stored, hupdated.clean,
      fun other hother => ?_, hupdated.residents⟩
    · have hempty := (hw.stopped hwriting).2
      rw [hqueue] at hempty
      cases hempty
    · exact hw.queue other (hqueue ▸ List.mem_cons_of_mem _ hother)

/-- The waiting writes move nothing that is looked at. -/
theorem settled (hw : w.InStep S) (hc : w.Coherent) (ho : w.Own) :
    (∀ other, S other → w.drained.place other = w.store.place other) ∧ w.settled.InStep S := by
  have hall := settled_of_writeNext
    (I := fun w₁ => (∀ other, S other → w₁.store.place other = w.store.place other) ∧
      w₁.InStep S ∧ w₁.Own)
    (fun hc₁ hw₁ => by
      obtain ⟨hplace, hnext⟩ := hw₁.2.1.writeNext hc₁ hw₁.2.2
      exact ⟨fun other hother => (hplace other hother).trans (hw₁.1 other hother), hnext,
        hw₁.2.2.writeNext⟩) hc ⟨fun _ _ => rfl, hw, ho⟩
  exact ⟨hall.1, hall.2.1⟩

end InStep

/-! ## Saving a copy -/

/-- The world after a copy has been put in the place of another of its object, and saved. -/
def sentAs (w : World) (h : Handle) (c : Copy) : World :=
  { w.settled with
    store := (Store.update c.record.id (c.update w.clock) w.drained).2
    session := w.settled.session.change h fun _ => c.written w.clock }

namespace InStep

variable {S : ObjectId → Prop} {w : World} {h : Handle} {c : Copy}

theorem save_run (hw : w.InStep S) (hc : w.Coherent) (ho : w.Own) (hwriting : w.session.writing = true)
    (hgiven : w.session.Given h) (hid : c.record.id = (w.session.copyOf h).record.id)
    (hdirty : c.dirty.isClean = false) :
    (save h).run { w with session := w.session.change h fun _ => c } = (.ok true, w.sentAs h c) := by
  let w₁ : World := { w with session := w.session.change h fun _ => c }
  have hcopy : w₁.session.copyOf h = c := Session.copyOf_change_self hgiven _
  have hsent : w₁.sent h = { w with session := w.session.change h fun _ => c.written w.clock } :=
    congrArg (fun session => { w with session }) (Session.change_change w.session h _ _)
  have hsettled := (hw.settled hc ho).2
  have hown := ho.drained hc
  have hstored : w.drained.place c.record.id ≠ none := hid ▸ hsettled.stored h hgiven
  have hok := Store.update_ok hown (hsettled.connected hwriting) hstored (c.update w.clock)
  show (save h).run w₁ = _
  rw [save_dirty (hcopy.symm ▸ hdirty), hcopy, hsent,
    writeNow_run (w := { w with session := w.session.change h fun _ => c.written w.clock }) hwriting]
  show (match ((Store.update c.record.id (c.update w.clock) w.drained).1, w.sentAs h c) with
    | (.ok _, w₁) => (Except.ok true, w₁)
    | (.error e, w₁) => (.error (RuntimeError.persistence e), w₁.unsaved h c.dirty)) = _
  rw [show (Store.update c.record.id (c.update w.clock) w.drained).1 = .ok () from hok]

theorem update_unmoved (now : Timestamp) (hheader : c.dirty.header = false) :
    (c.update now).parent = none ∧ (c.update now).recycled = none := by
  rw [Copy.update, hheader]
  exact ⟨rfl, rfl⟩

/-- A copy stands where its object did, or it is the resident copy that has been moved. -/
def Moves (S : ObjectId → Prop) (w : World) (h : Handle) (c : Copy) : Prop :=
  S c.record.id →
    (c.dirty.header = false ∧ Place.ofRecord c.record = Place.ofRecord (w.session.copyOf h).record) ∨
      (c.dirty.header = true ∧ w.At c.record.id h)

/-- Where objects stand that are looked at, after a copy has been saved. -/
theorem place_sentAs (hw : w.InStep S) (hc : w.Coherent) (ho : w.Own)
    (hwriting : w.session.writing = true) (hgiven : w.session.Given h)
    (hid : c.record.id = (w.session.copyOf h).record.id) {other : ObjectId} (hother : S other) :
    (w.sentAs h c).store.place other =
      if other = c.record.id ∧ c.dirty.header = true then some (Place.ofRecord c.record)
      else w.store.place other := by
  obtain ⟨hplace, hsettled⟩ := hw.settled hc ho
  have hown := ho.drained hc
  have htimed := c.update_timed ho.clock
  show (Store.update c.record.id (c.update w.clock) w.drained).2.place other = _
  by_cases heq : other = c.record.id
  · cases hheader : c.dirty.header with
    | false =>
      obtain ⟨hparent, hrecycled⟩ := update_unmoved w.clock hheader
      rw [Store.place_update_unmoved hown _ htimed hparent hrecycled, if_neg (by simp)]
      exact hplace other hother
    | true =>
      have hstored : w.drained.place c.record.id ≠ none := hid ▸ hsettled.stored h hgiven
      obtain ⟨p, hp⟩ := Option.ne_none_iff_exists'.mp hstored
      rw [Store.place_update hown (hsettled.connected hwriting) _ htimed, if_pos heq, hp,
        if_pos ⟨heq, rfl⟩, Copy.update, hheader]
      rfl
  · rw [Store.place_update_ne hown heq htimed, if_neg fun h => heq h.1]
    exact hplace other hother

theorem sentAs (hw : w.InStep S) (hc : w.Coherent) (ho : w.Own) (hwriting : w.session.writing = true)
    (hgiven : w.session.Given h) (hid : c.record.id = (w.session.copyOf h).record.id)
    (hmoves : Moves S w h c) : (w.sentAs h c).InStep S := by
  obtain ⟨hplace, hsettled⟩ := hw.settled hc ho
  have hown := ho.drained hc
  have hwrote := Store.update_wrote (settle_keeps w hc).store c.record.id (c.update w.clock)
  have hnew {other : ObjectId} (hother : S other) := hw.place_sentAs hc ho hwriting hgiven hid hother
  refine ⟨fun hstopped => absurd (hwriting.symm.trans hstopped) Bool.false_ne_true.symm,
    fun _ => hwrote.connected.trans (hsettled.connected hwriting), ?_, fun _ => ?_,
    hsettled.queue, fun _ id g hat hS => ?_⟩
  · have hkept : w.settled.session.All fun c' =>
        (w.sentAs h c).store.place c'.record.id ≠ none := fun g hg =>
      Store.place_update_ne_none hown _ (c.update_timed ho.clock) (hsettled.stored g hg)
    exact hkept.change h fun _ => hid ▸ hkept h hgiven
  · exact (hsettled.clean hwriting).change h fun _ _ => rfl
  · have hat' : w.At id g := hat
    have hnamed := hc.session.named id g hat'
    have hold := hw.residents hwriting id g hat' hS
    show _ = some (Place.ofRecord ((w.session.change h fun _ => c.written w.clock).copyOf g).record)
    rw [hnew hS]
    by_cases hgh : g = h
    · subst hgh
      have hidc : id = c.record.id := hnamed.symm.trans hid.symm
      rw [Session.copyOf_change_self hgiven]
      rcases hmoves (hidc ▸ hS) with ⟨hheader, hsame⟩ | ⟨hheader, -⟩
      · rw [if_neg (by simp [hheader]), hold, ← hsame]
        rfl
      · rw [if_pos ⟨hidc, hheader⟩]
        rfl
    · rw [Session.copyOf_change_ne hgh, ← hold, if_neg]
      rintro ⟨rfl, hheader⟩
      rcases hmoves hS with ⟨hheader', -⟩ | ⟨-, hath⟩
      · rw [hheader] at hheader'
        cases hheader'
      · exact hgh (Option.some.inj (hat'.symm.trans hath))

/-- What is seen of an object says where it is stored. -/
theorem place_seen (hw : w.InStep S) (hc : w.Coherent) (ho : w.Own) (hwriting : w.session.writing = true)
    {id : ObjectId} (hS : S id) : (w.seen id = .ok none → w.store.place id = none) ∧
      ∀ c, w.seen id = .ok (some c) → w.store.place id = some (Place.ofRecord c.record) := by
  obtain ⟨hplace, -⟩ := hw.settled hc ho
  cases hres : w.session.resident.get? id with
  | some h =>
    rw [At.seen hres]
    refine ⟨fun hnone => (by cases hnone), fun c hc' => ?_⟩
    cases hc'
    exact hw.residents hwriting id h hres hS
  | none =>
    rw [seen_absent hres, Store.fresh, ← hplace id hS]
    rcases hread : w.drained.read id with e | _ | r
    · exact ⟨fun hnone => (by cases hnone), fun c hc' => (by cases hc')⟩
    · exact ⟨fun _ => (Store.read_eq_none (ho.drained hc)).mp hread, fun c hc' => (by cases hc')⟩
    · refine ⟨fun hnone => (by cases hnone), fun c hc' => ?_⟩
      cases hc'
      exact Store.place_of_read hread

/-- An object that may get a parent is not above it. -/
theorem clear (hw : w.InStep S) (hc : w.Coherent) (ho : w.Own) (hwriting : w.session.writing = true)
    (hall : ∀ other, S other) (hnowhere : w.store.place .nothing = none) {id parent : ObjectId}
    (hid : w.store.place id ≠ none) (hok : w.verdict id parent = .ok ()) (hparent : parent ≠ .nothing) :
    ¬Relation.ReflTransGen w.store.ChildOf parent id := by
  have hseen {other : ObjectId} := hw.place_seen hc ho hwriting (hall other)
  have hnothing : w.seen .nothing = .ok none := by
    have hread : w.drained.read .nothing = .ok none := by
      rw [Store.read_eq_none (ho.drained hc), (hw.settled hc ho).1 _ (hall _), hnowhere]
    cases hres : w.session.resident.get? .nothing with
    | some h =>
      rw [hw.residents hwriting _ h hres (hall _)] at hnowhere
      cases hnowhere
    | none =>
      rw [seen_absent hres, Store.fresh, hread]
      rfl
  obtain ⟨ids, hmem, havoids, hclosed⟩ :=
    verdict_closed hc hnothing (fun hnone => hid (hseen.1 hnone)) hok hparent
  intro hreaches
  -- Whatever is above the parent is among the ids.
  have habove : ∀ other, Relation.ReflTransGen w.store.ChildOf parent other → other ∈ ids := by
    intro other hother
    induction hother with
    | refl => exact hmem
    | @tail b c _ hstep ih =>
      obtain ⟨p, hp, rfl⟩ := hstep
      rcases hclosed b ih with hnone | ⟨c, hsome, hparent⟩
      · rw [hseen.1 hnone] at hp
        cases hp
      · rw [hseen.2 c hsome] at hp
        cases hp
        exact hparent
  exact havoids (habove id hreaches)

end InStep

end World

end Lineage
