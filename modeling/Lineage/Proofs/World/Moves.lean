/-
  Lineage.Proofs.World.Moves

  What all moves of objects keep.

  Operations change where objects stand in a few ways (`Move`).  A property of the store
  that each of them keeps (`Followed`) holds whatever is asked for, as long as parents are
  allowed and objects that are looked at get them through their resident copies
  (`Followed.upheld`).

  So recycled objects stay recycled.  The flag is written together with the parent, from
  whatever copy the parent is changed in.  Where the parent of an object is changed through
  its resident copy only, as scripts do, an object that is stored as recycled is never
  stored as anything else again (`Leads.recycled_stays`).  A copy that was kept from before
  brings it back (`Leads.recycled_returns`).
-/
import Lineage.Proofs.World.Headers

namespace Lineage

-- Nothing here depends on what the compiler makes of a source, or on how a run goes.
attribute [local irreducible] Program.compile Machine.run

namespace World

variable {S : ObjectId → Prop} {A : ObjectId → Store → Prop} {Φ : Store → Prop}

/-- What every move keeps, and what is known of the parents that are allowed. -/
structure Followed (S : ObjectId → Prop) (A : ObjectId → Store → Prop) (Φ : Store → Prop) : Prop where
  moves : ∀ {s t}, Move S A s t → Φ s → Φ t
  nothing : ∀ s, A .nothing s
  still : ∀ {s t : Store} {p}, t.next = s.next → A p s → A p t
  stored : ∀ {k} {s : Store} {p}, s.Numbered k → s.Own → s.place p ≠ none → A p s
  nowhere : (∀ id, S id) → ∀ {s}, Φ s → s.place .nothing = none

/-- Memory and store are in step, and a property of the store holds. -/
structure Placed (S : ObjectId → Prop) (Φ : Store → Prop) (k : Nat) (w : World) : Prop where
  numbered : w.Numbered k
  own : w.Own
  inStep : w.InStep S
  kept : Φ w.store

/-- Objects that are looked at get parents through their resident copies. -/
def Resident (S : ObjectId → Prop) (h : Handle) (w : World) : Prop :=
  w.session.Given h ∧ (S (w.session.copyOf h).record.id → w.At (w.session.copyOf h).record.id h)

namespace Placed

variable {k : Nat} {w : World}

/-- What is asked of numbers and texts is asked anyway. -/
theorem base (hw : Placed S Φ k w) : w.Numbered k ∧ w.Own := ⟨hw.numbered, hw.own⟩

theorem of_base (hb : w.Numbered k ∧ w.Own) (hi : w.InStep S) (hΦ : Φ w.store) : Placed S Φ k w :=
  ⟨hb.1, hb.2, hi, hΦ⟩

variable (hF : Followed S A Φ)
include hF

theorem apart (hw : Placed S Φ k w) {t : Store} (hnext : t.next = w.store.next)
    (hplace : ∀ id, S id → t.place id = w.store.place id) : Φ t :=
  hF.moves (.apart hnext hplace) hw.kept

theorem kept_drained (hw : Placed S Φ k w) (hc : w.Coherent) : Φ w.drained :=
  apart hF hw (drained_frame hc).2.2 (hw.inStep.settled hc hw.own).1

theorem settled (hw : Placed S Φ k w) (hc : w.Coherent) : Placed S Φ k w.settled :=
  of_base (Own.tended.settled hc hw.base) (hw.inStep.settled hc hw.own).2 (kept_drained hF hw hc)

theorem steady (k : Nat) : Steady (Placed S Φ k) where
  same hw _ hs := of_base (Own.tended.same hw.base hs) (hw.inStep.same hs)
    (apart hF hw hs.next fun _ _ => congrFun hs.place _)
  settled hc hw := settled hF hw hc
  adopted hc hw _ _ hread _ := of_base (Own.tended.adopted hw.base hread)
    (hw.inStep.adopted hc (Store.place_of_read hread)) hw.kept

/-! ## Saving -/

omit hF in
theorem coherent_changed (hc : w.Coherent) (h : Handle) {c : Copy}
    (hid : c.record.id = (w.session.copyOf h).record.id)
    (hmethods : c.record.methods = (w.session.copyOf h).record.methods) :
    World.Coherent { w with session := w.session.change h fun _ => c } :=
  ⟨hc.session.change h hid fun _ _ => by rw [hmethods], hc.store⟩

/-- A copy is put in the place of another of its object, and saved. -/
theorem saved (hw : Placed S Φ k w) (hc : w.Coherent) {h : Handle} {c : Copy}
    (hid : c.record.id = (w.session.copyOf h).record.id)
    (hmethods : c.record.methods = (w.session.copyOf h).record.methods)
    (hmoves : w.session.writing = true → InStep.Moves S w h c)
    (hmove : w.session.writing = true → w.session.Given h →
      Move S A w.drained (w.sentAs h c).store) :
    Placed S Φ k ((save h).run { w with session := w.session.change h fun _ => c }).2 := by
  have hc₁ := coherent_changed hc h hid hmethods
  have hbase : World.Numbered k { w with session := w.session.change h fun _ => c } ∧
      World.Own { w with session := w.session.change h fun _ => c } := Own.tended.changed hw.base h hid
  have hrest : ((save h).run { w with session := w.session.change h fun _ => c }).2.InStep S ∧
      Φ ((save h).run { w with session := w.session.change h fun _ => c }).2.store := by
    by_cases hgiven : w.session.Given h
    · have hcopy : (w.session.change h fun _ => c).copyOf h = c := Session.copyOf_change_self hgiven _
      by_cases hwriting : w.session.writing = true
      · cases hclean : c.dirty.isClean with
        | true =>
          -- There is nothing to be written.
          have hheader : c.dirty.header = false := by
            simp only [Dirty.isClean, Bool.and_eq_true, Bool.not_eq_true'] at hclean
            exact hclean.1.1
          rw [save_clean (w := { w with session := w.session.change h fun _ => c })
            (hcopy.symm ▸ hclean)]
          refine ⟨hw.inStep.changed h hid (fun id hat hS => ?_) fun _ => hheader, hw.kept⟩
          rcases hmoves hwriting ((hid.trans (hc.session.named id h hat)).symm ▸ hS) with ⟨-, hsame⟩ | ⟨hheader', -⟩
          · exact hsame
          · rw [hheader] at hheader'
            cases hheader'
        | false =>
          rw [hw.inStep.save_run hc hw.own hwriting hgiven hid hclean]
          exact ⟨hw.inStep.sentAs hc hw.own hwriting hgiven hid (hmoves hwriting),
            hF.moves (hmove hwriting hgiven) (kept_drained hF hw hc)⟩
      · have hstopped : w.session.writing = false := Bool.not_eq_true _ ▸ hwriting
        have hchanged := hw.inStep.idle hstopped h (f := fun _ => c) hid
        cases hclean : c.dirty.isClean with
        | true =>
          rw [save_clean (w := { w with session := w.session.change h fun _ => c })
            (hcopy.symm ▸ hclean)]
          exact ⟨hchanged, hw.kept⟩
        | false =>
          -- Nothing is written anymore, and the changes stay marked.
          rw [save_dirty (w := { w with session := w.session.change h fun _ => c })
            (hcopy.symm ▸ hclean), writeNow_stopped (by exact hstopped)]
          exact ⟨(hchanged.idle hstopped h rfl).idle hstopped h rfl, hw.kept⟩
    · -- There is no copy, and nothing happens.
      have hclean : (w.session.copyOf h).dirty.isClean = true := by
        rw [Session.clean_of_absent hgiven]
        rfl
      rw [Session.change_absent hgiven, save_clean hclean]
      exact ⟨hw.inStep, hw.kept⟩
  exact of_base (own_upheld.save hc₁ hbase h) hrest.1 hrest.2

omit hF in
/-- Where nothing of the header is changed, nothing is moved. -/
theorem unmoved (hw : Placed S Φ k w) (hc : w.Coherent) (hwriting : w.session.writing = true)
    {h : Handle} {c : Copy} (hgiven : w.session.Given h)
    (hid : c.record.id = (w.session.copyOf h).record.id)
    (hheader : S c.record.id → c.dirty.header = false) :
    Move S A w.drained (w.sentAs h c).store := by
  refine .apart (Store.next_update _ _ _) fun other hother => ?_
  rw [hw.inStep.place_sentAs hc hw.own hwriting hgiven hid hother,
    (hw.inStep.settled hc hw.own).1 other hother, if_neg]
  rintro ⟨rfl, hheader'⟩
  rw [hheader hother] at hheader'
  cases hheader'

theorem save (hw : Placed S Φ k w) (hc : w.Coherent) (h : Handle) :
    Placed S Φ k ((World.save h).run w).2 := by
  have hsaved := saved hF hw hc (h := h) (c := w.session.copyOf h) rfl rfl
  have hself : { w with session := w.session.change h fun _ => w.session.copyOf h } = w :=
    congrArg (fun session => { w with session }) (Session.change_self w.session h)
  rw [hself] at hsaved
  have hheader (hwriting : w.session.writing = true) (hgiven : w.session.Given h)
      (hS : S (w.session.copyOf h).record.id) : (w.session.copyOf h).dirty.header = false :=
    hw.inStep.clean hwriting h hgiven hS
  refine hsaved (fun hwriting hS => .inl ⟨?_, rfl⟩) fun hwriting hgiven =>
    unmoved hw hc hwriting hgiven rfl (hheader hwriting hgiven)
  by_cases hgiven : w.session.Given h
  · exact hheader hwriting hgiven hS
  · rw [Session.clean_of_absent hgiven]

omit hF in
theorem saveLater (hw : Placed S Φ k w) (hc : w.Coherent) (h : Handle) :
    Placed S Φ k (saveLater h w).2 := by
  have hb := own_upheld.saveLater hc hw.base h
  have hsent := hw.inStep.changed h (f := fun c => c.written w.clock) rfl (fun _ _ _ => rfl) fun _ => rfl
  cases hclean : (w.session.copyOf h).dirty.isClean with
  | true =>
    rw [saveLater_clean hclean]
    exact hw
  | false =>
    have hgiven : w.session.Given h := by
      by_contra hgiven
      rw [Session.clean_of_absent hgiven] at hclean
      cases hclean
    rw [saveLater_dirty hclean] at hb ⊢
    by_cases hwriting : (w.sent h).session.writing = true
    · rw [writeLater_run hwriting] at hb ⊢
      refine of_base hb ⟨fun hstopped => ?_, hsent.connected, hsent.stored, hsent.clean,
        fun job hjob hS => ?_, hsent.residents⟩ hw.kept
      · exact absurd (hwriting.symm.trans hstopped) Bool.false_ne_true.symm
      · rcases List.mem_append.mp hjob with hjob | hjob
        · exact hw.inStep.queue job hjob hS
        · rw [List.mem_singleton.mp hjob] at hS ⊢
          have hcopy : ((w.sent h).session.copyOf h).record.id = (w.session.copyOf h).record.id :=
            congrArg (fun c => c.record.id) (Session.copyOf_change_self hgiven _)
          exact InStep.update_unmoved _ (hw.inStep.clean hwriting h hgiven (hcopy ▸ hS))
    · rw [writeLater_stopped (Bool.not_eq_true _ ▸ hwriting)] at hb ⊢
      exact of_base hb hsent hw.kept

/-! ## Leaving memory and coming back -/

omit hF in
theorem invalidate (hw : Placed S Φ k w) (hc : w.Coherent) (id : ObjectId) :
    Placed S Φ k (invalidate id w).2 :=
  of_base (own_upheld.invalidate hc hw.base id) (hw.inStep.dropping hc id) hw.kept

theorem refresh (hw : Placed S Φ k w) (hc : w.Coherent) (h : Handle) (hgiven : w.session.Given h) :
    Placed S Φ k ((refresh h).run w).2 := by
  have hb := own_upheld.refresh hc hw.base h hgiven
  have hdropped := invalidate_keeps (w.session.copyOf h).record.id w hc
  have hsettled := (hw.inStep.dropping hc (w.session.copyOf h).record.id).settled hdropped
    ⟨hw.own.store, hw.own.clock, hw.own.queue⟩
  have hsame := Store.fetch_same (w.session.copyOf h).record.id w.drained
  have hreread : (w.reread (w.session.copyOf h).record.id).InStep S := hsettled.2.same hsame
  have hkept : Φ (w.reread (w.session.copyOf h).record.id).store :=
    hF.moves (.apart hsame.next fun _ _ => congrFun hsame.place _) (kept_drained hF hw hc)
  rw [refresh_run] at hb ⊢
  rcases hfetch : (Store.fetch (w.session.copyOf h).record.id w.drained).1 with e | _ | record
  · rw [hfetch] at hb
    exact of_base hb hreread hkept
  · rw [hfetch] at hb
    exact of_base hb hreread hkept
  · rw [hfetch] at hb
    refine of_base hb ?_ hkept
    have hid := Store.fetch_id (drained_faithful hc) hfetch
    have hplace : w.drained.place record.id = some (Place.ofRecord record) := by
      by_cases hconnected : w.drained.isConnected = true
      · rw [Store.fetch_read hconnected] at hfetch
        exact Store.place_of_read (hid ▸ hfetch)
      · rw [Store.fetch_offline (Bool.not_eq_true _ ▸ hconnected)] at hfetch
        cases hfetch
    -- The copy is now what was read, so it stands where the store says.
    refine ⟨hreread.stopped, hreread.connected, hreread.stored.change h fun _ => ?_, fun hwriting =>
      (hreread.clean hwriting).change h fun _ _ => rfl, hreread.queue, fun hwriting id g hat hS => ?_⟩
    · show (Store.fetch _ w.drained).2.place record.id ≠ none
      rw [hsame.place, hplace]
      exact nofun
    · have hres : (((w.session.dropping (w.session.copyOf h).record.id).resident).put record.id h).get? id =
          some g := hat
      rw [Dict.get?_put] at hres
      show (Store.fetch _ w.drained).2.place id =
        some (Place.ofRecord ((w.session.change h fun _ => { record }).copyOf g).record)
      split at hres
      · rename_i heq
        cases hres
        rw [Session.copyOf_change_self hgiven, hsame.place, heq, hplace]
      · rename_i hne
        have hgh : g ≠ h := by
          rintro rfl
          have hnamed := hdropped.session.named id g hres
          exact hne (hnamed.symm.trans hid.symm)
        rw [Session.copyOf_change_ne hgh]
        exact hreread.residents hwriting id g hres hS

/-! ## New objects -/

theorem create (hw : Placed S Φ (k + 1) w) (hc : w.Coherent) (parent : ObjectId)
    (properties : OrderedDict String Value) (methods : OrderedDict String MethodDef)
    (hparent : A parent w.store) :
    Placed S Φ k ((World.create parent properties methods).run w).2 := by
  have hb := own_upheld.create hc hw.base parent properties methods trivial
  have hsettled := settled hF hw hc
  have hcoherent : w.settled.Coherent := settle_keeps w hc
  rw [create_eq] at hb ⊢
  by_cases hconnected : w.drained.isConnected = true
  · cases hnext : w.drained.next with
    | error e =>
      rw [Store.create_failed hconnected hnext] at hb ⊢
      exact of_base hb hsettled.inStep hsettled.kept
    | ok n =>
      obtain ⟨t, hrun, hwrote, hnext'⟩ := Store.create_run hconnected (drained_faithful hc) hnext
        (draft parent properties methods w.clock)
      have hplace := Store.place_create hconnected hnext (r := draft parent properties methods w.clock)
        hw.own.clock hw.own.clock
      rw [hrun] at hplace
      -- The number is new: nothing is stored under it, and no copy has it.
      have hunused : w.drained.place ⟨n⟩ = none :=
        (Store.read_eq_none (hw.own.drained hc)).mp
          (hsettled.numbered.store.unused n hnext ⟨n⟩ (Int.le_refl _))
      have habsent : w.session.resident.get? ⟨n⟩ = none := by
        cases hres : w.session.resident.get? ⟨n⟩ with
        | none => rfl
        | some h =>
          have hlt : (w.session.copyOf h).record.id.number.toInt < n.toInt :=
            hsettled.numbered.copies n hnext h (hc.session.given _ h hres)
          rw [hc.session.named _ h hres] at hlt
          exact absurd hlt (Int.lt_irrefl _)
      -- No place but that of the new object changes.
      have hmoved : InStep S { w.settled with store := t } := by
        refine hsettled.inStep.moved hwrote.connected (fun id _ hid => ?_) fun id hid => ?_
        · have hne : id ≠ ⟨n⟩ := by
            rintro rfl
            exact hid hunused
          exact (hplace id).trans (if_neg hne)
        · rw [show t.place id = _ from hplace id]
          split
          · exact nofun
          · exact hid
      have hnew : t.place ⟨n⟩ = some ⟨parent, false⟩ := by
        rw [hplace, if_pos rfl]
        rfl
      have hmove : Move S A w.drained t := .created n parent hnext
        (hsettled.numbered.store.first n hnext) hnext' (hsettled.numbered.store.toInt_succ hnext)
        hunused (hF.still (drained_frame hc).2.2 hparent) fun other _ => by
          rw [hplace]
          rfl
      have hedit := (Store.Edit.create w.drained (draft parent properties methods w.clock)).faithful
        (drained_faithful hc)
      rw [hrun] at hb hedit ⊢
      dsimp only at hb ⊢
      rw [adopt_absent habsent] at hb ⊢
      exact of_base hb (hmoved.adopted (r := { draft parent properties methods w.clock with id := ⟨n⟩ })
        ⟨hcoherent.session, hedit⟩ hnew) (hF.moves hmove hsettled.kept)
  · rw [Store.create_offline (Bool.not_eq_true _ ▸ hconnected)] at hb ⊢
    exact of_base hb hsettled.inStep hsettled.kept

/-! ## Moving objects -/

/-- A resident copy is moved and saved. -/
theorem movedCopy (hw : Placed S Φ k w) (hc : w.Coherent) {h : Handle} {c : Copy}
    (hid : c.record.id = (w.session.copyOf h).record.id)
    (hmethods : c.record.methods = (w.session.copyOf h).record.methods)
    (hheader : c.dirty.header = true) (hat : S c.record.id → w.At c.record.id h)
    (hmove : w.session.writing = true → w.session.Given h → S c.record.id → ∀ t : Store,
      t.next = w.drained.next →
      w.drained.place c.record.id = some (Place.ofRecord (w.session.copyOf h).record) →
      (∀ other, S other → t.place other =
        if other = c.record.id then some (Place.ofRecord c.record) else w.drained.place other) →
      Move S A w.drained t) :
    Placed S Φ k ((World.save h).run { w with session := w.session.change h fun _ => c }).2 := by
  refine saved hF hw hc hid hmethods (fun _ hS => .inr ⟨hheader, hat hS⟩) fun hwriting hgiven => ?_
  by_cases hS : S c.record.id
  · have hplace := (hw.inStep.settled hc hw.own).1
    refine hmove hwriting hgiven hS _ (Store.next_update _ _ _) ?_ fun other hother => ?_
    · rw [hplace _ hS, hw.inStep.residents hwriting _ h (hat hS) hS]
    · rw [hw.inStep.place_sentAs hc hw.own hwriting hgiven hid hother, hplace other hother]
      simp only [hheader, and_true]
  · exact unmoved hw hc hwriting hgiven hid fun hS' => absurd hS' hS

/-- An object that is in memory is marked as recycled, and leaves. -/
theorem recycleAt (hw : Placed S Φ k w) (hc : w.Coherent) {id : ObjectId} {h : Handle}
    (hat : w.At id h) : Placed S Φ k ((do
      onRecord h fun r => { r with recycled := true }
      onDirty h fun d => { d with header := true }
      let _ ← World.save h
      World.invalidate id : Action Unit).run w).2 := by
  let c : Copy :=
    { record := { (w.session.copyOf h).record with recycled := true }
      dirty := { (w.session.copyOf h).dirty with header := true } }
  have hnamed : c.record.id = id := hc.session.named id h hat
  have hmarked : (onDirty h (fun d => { d with header := true })
      (onRecord h (fun r => { r with recycled := true }) w).2).2 =
        { w with session := w.session.change h fun _ => c } := by
    refine congrArg (fun session => { w with session }) ?_
    exact (Session.change_change w.session h _ _).trans (Session.change_congr rfl)
  have hsaved := movedCopy hF hw hc (h := h) (c := c) rfl rfl rfl (fun _ => hnamed ▸ hat)
    fun _ _ hS t hnext hold hplace => .recycled _ _ hS hold hnext hplace
  have hc' := (save_guards h).world (coherent_changed hc h (c := c) rfl rfl)
  rw [run_lift_bind, run_lift_bind, hmarked, run_bind]
  rcases hrun : (World.save h).run { w with session := w.session.change h fun _ => c }
    with ⟨e | _, w₁⟩
  · rw [hrun] at hsaved
    exact hsaved
  · rw [hrun] at hsaved hc'
    exact invalidate hsaved hc' id

theorem recycle (hw : Placed S Φ k w) (hc : w.Coherent) (id : ObjectId) :
    Placed S Φ k ((recycle id).run w).2 := by
  have hrecycle : Attempts (fun w => w.Coherent ∧ Placed S Φ k w) (World.recycle id)
      (fun _ => Placed S Φ k) (Placed S Φ k) :=
    .bind (((steady hF k).object id).fails fun _ hw => hw.2) fun h =>
      .of_world fun w hw => recycleAt hF hw.1.2 hw.1.1 hw.2
  exact hrecycle.world ⟨hc, hw⟩

theorem reparent (hw : Placed S Φ k w) (hc : w.Coherent) {h : Handle} {parent : ObjectId}
    (hat : S (w.session.copyOf h).record.id → w.At (w.session.copyOf h).record.id h)
    (hparent : A parent w.store)
    (hok : w.session.writing = true → w.verdict (w.session.copyOf h).record.id parent = .ok ()) :
    Placed S Φ k ((reparent h parent).run w).2 := by
  let c : Copy :=
    { record := { (w.session.copyOf h).record with parent }
      dirty := { (w.session.copyOf h).dirty with header := true } }
  have hmarked : (do
      onRecord h fun r => { r with parent }
      onDirty h fun d => { d with header := true } : StateM World Unit) w =
        ((), { w with session := w.session.change h fun _ => c }) := by
    refine congrArg (fun session => ((), { w with session })) ?_
    exact (Session.change_change w.session h _ _).trans (Session.change_congr rfl)
  have hsaved := movedCopy hF hw hc (h := h) (c := c) rfl rfl rfl hat
    fun hwriting hgiven hS t hnext hold hplace => by
      refine .placed _ _ parent hS hold (hF.still (drained_frame hc).2.2 hparent) hnext
        (fun hall hne => ?_) hplace
      -- What is stored once the waiting writes have been applied has the same children.
      have hdrained := settled hF hw hc
      refine hdrained.inStep.clear (settle_keeps w hc) hdrained.own hwriting hall
        (hF.nowhere hall hdrained.kept) ?_ ?_ hne
      · show w.drained.place _ ≠ none
        rw [hold]
        exact nofun
      · have hsame : w.settled.verdict (w.session.copyOf h).record.id parent =
            w.verdict (w.session.copyOf h).record.id parent :=
          verdict_congr hc (settle_keeps w hc) rfl _ _
        exact hsame.trans (hok hwriting)
  rcases hrun : (World.save h).run { w with session := w.session.change h fun _ => c }
    with ⟨result, w₁⟩
  rw [reparent_run h parent w (by rw [hmarked]; exact hrun)]
  rwa [hrun] at hsaved

omit hF in
/-- Resident copies stay when objects are brought into memory. -/
theorem at_unread (id : ObjectId) (h : Handle) : Unread fun w => w.At id h where
  settle _ hw := hw
  fetch other w hw := by
    rw [access_run]
    cases (Store.fetch other w.store).1 <;> exact hw
  adopt record w hw := by
    cases hres : w.session.resident.get? record.id with
    | some g =>
      rw [adopt_resident hres]
      exact hw
    | none =>
      rw [adopt_absent hres]
      exact at_adopting hres hw

theorem setParent (hw : Placed S Φ k w) (hc : w.Coherent) (h : Handle) (parent : ObjectId)
    (hparent : A parent w.store) (hmay : Resident S h w) :
    Placed S Φ k ((setParent h parent).run w).2 := by
  have hstill : Steady fun w => A parent w.store :=
    ⟨fun hw _ hs => hF.still hs.next hw, fun hc hw => hF.still (drained_frame hc).2.2 hw,
      fun _ hw _ _ _ _ => hw⟩
  have hallow := ((steady hF k).and hstill).allowParent (w.session.copyOf h).record.id parent w
    ⟨hc, hw, hparent⟩
  have huntouched := (Untouched.unread h w).allowParent (w.session.copyOf h).record.id parent
    w (.refl hmay.1)
  rw [setParent_run]
  rcases hrun : (allowParent (w.session.copyOf h).record.id parent).run w with ⟨e | _, w₁⟩
  · rw [hrun] at hallow
    exact hallow.2.1
  · rw [hrun] at hallow huntouched
    have hcopy : w₁.session.copyOf h = w.session.copyOf h := huntouched.copy
    refine reparent hF hallow.2.1 hallow.1 (fun hS => ?_) hallow.2.2 fun hwriting => ?_
    · rw [hcopy] at hS ⊢
      have hstays := (at_unread _ h).allowParent (w.session.copyOf h).record.id parent w (hmay.2 hS)
      rwa [hrun] at hstays
    · -- What was found out is found out after it as well.
      have hconnected := (settled hF hw hc).inStep.connected (huntouched.writing ▸ hwriting)
      obtain ⟨w', hview, hloaded⟩ := allowParent_view hc hconnected (w.session.copyOf h).record.id parent
      obtain ⟨hverdict, rfl⟩ := Prod.mk.inj (hview.symm.trans hrun)
      rw [hcopy, verdict_congr hc hloaded.coherent hloaded.seen]
      exact hverdict

/-! ## Closing and opening -/

theorem shutdown (hw : Placed S Φ k w) (hc : w.Coherent) : Placed S Φ k (shutdown.run w).2 := by
  have hb := own_upheld.shutdown hc hw.base
  have hsettled := settled hF hw hc
  have hplace (id : ObjectId) : (Store.disconnect w.drained).2.place id = w.drained.place id := by
    cases w.drained <;> rfl
  have hnext : (Store.disconnect w.drained).2.next = w.drained.next := by
    cases w.drained <;> rfl
  rw [shutdown_run] at hb ⊢
  refine of_base hb ⟨fun _ => ⟨?_, rfl⟩, nofun, fun h hgiven => ?_, nofun, nofun, nofun⟩
    (hF.moves (.apart hnext fun id _ => hplace id) hsettled.kept)
  · show (Store.disconnect w.drained).2.isConnected = false
    cases w.drained <;> rfl
  · show (Store.disconnect w.drained).2.place _ ≠ none
    rw [hplace]
    exact hsettled.inStep.stored h hgiven

omit hF in
/-- A new session has no copies yet. -/
theorem inStep_opened (w : World) (runtime : RuntimeSettings) :
    ((openSession runtime).run w).2.InStep S := by
  rw [openSession_run]
  refine ⟨nofun, fun _ => ?_, .none runtime, fun _ => .none runtime, nofun, fun _ id h hat => ?_⟩
  · show (Store.connect w.store).2.isConnected = true
    cases w.store <;> rfl
  · cases hat

theorem reopened (hw : Placed S Φ k w) (hc : w.Coherent) (runtime : RuntimeSettings) :
    Placed S Φ k ((openSession runtime).run w).2 := by
  refine of_base (own_upheld.reopened hc hw.base runtime) (inStep_opened w runtime) ?_
  rw [openSession_run]
  refine apart hF hw ?_ fun id _ => ?_ <;> cases w.store <;> rfl

omit hF in
/-- A session over a store in which nothing is stored yet. -/
theorem start {s : Store} (hs : s = .memory {} ∨ s = .durable {}) (hk : k < 2 ^ 63)
    (runtime : RuntimeSettings) (hΦ : ∀ {t : Store}, (∀ id, t.place id = none) → Φ t) :
    ((openSession runtime).run (initial s runtime)).2.Coherent ∧
      Placed S Φ k ((openSession runtime).run (initial s runtime)).2 := by
  have hc := Numbered.coherent_initial hs runtime
  refine ⟨(openSession_guards runtime).world hc, .of_base
    (own_upheld.reopened hc ⟨.start hs hk runtime, .start hs runtime⟩ runtime)
    (inStep_opened _ runtime) (hΦ fun id => ?_)⟩
  rw [openSession_run]
  rcases hs with rfl | rfl <;> rfl

end Placed

namespace Followed

variable (hF : Followed S A Φ)
include hF

/-- What all moves keep is upheld. -/
theorem upheld : Upheld (Placed S Φ) (fun p w => A p w.store) (Resident S) where
  steady := Placed.steady hF
  ordered hw := hw.numbered.store.ordered
  less hw := Placed.of_base (own_upheld.less hw.base) hw.inStep hw.kept
  compiled hw compiled compilations :=
    have hi := hw.inStep
    .of_base (own_upheld.compiled hw.base compiled compilations)
      ⟨hi.stopped, hi.connected, hi.stored, hi.clean, hi.queue, hi.residents⟩ hw.kept
  seeded hw seed :=
    have hi := hw.inStep
    .of_base (own_upheld.seeded hw.base seed)
      ⟨hi.stopped, hi.connected, hi.stored, hi.clean, hi.queue, hi.residents⟩ hw.kept
  changed {k w} hw h f hf := .of_base (own_upheld.changed hw.base h hf)
    (hw.inStep.changed h (hf.id _)
      (fun _ _ _ => congrArg₂ Place.mk (hf.parent _) (hf.recycled _)) fun hheader => by
        rw [hf.dirty, hheader]) hw.kept
  written {k w} hc hw := by
    obtain ⟨hplace, hi⟩ := hw.inStep.writeNext hc hw.own
    refine .of_base (own_upheld.written hc hw.base) hi (Placed.apart hF hw ?_ hplace)
    unfold World.writeNext
    cases w.session.queue with
    | nil => rfl
    | cons job rest => exact Store.next_update job.id job.update w.store
  save hc hw := Placed.save hF hw hc
  saveLater hc hw := Placed.saveLater hw hc
  refresh hc hw := Placed.refresh hF hw hc
  invalidate hc hw := Placed.invalidate hw hc
  create hc hw parent properties methods hparent :=
    Placed.create hF hw hc parent properties methods hparent
  recycle hc hw := Placed.recycle hF hw hc
  setParent hc hw h parent hparent hmay := Placed.setParent hF hw hc h parent hparent hmay
  shutdown hc hw := Placed.shutdown hF hw hc
  waited hw clock hclock :=
    have hi := hw.inStep
    .of_base (own_upheld.waited hw.base clock hclock)
      ⟨hi.stopped, hi.connected, hi.stored, hi.clean, hi.queue, hi.residents⟩ hw.kept
  reopened hc hw := Placed.reopened hF hw hc
  still _ := ⟨fun hw _ hs => hF.still hs.next hw, fun hc hw => hF.still (drained_frame hc).2.2 hw,
    fun _ hw _ _ _ _ => hw⟩
  nothing w := hF.nothing w.store
  resident {k w} hc hw id h hat := by
    have hgiven := hc.session.given id h hat
    have hnamed := hc.session.named id h hat
    refine ⟨hF.stored hw.numbered.store hw.own.store ?_, hgiven, fun _ => hnamed.symm ▸ hat⟩
    exact hnamed ▸ hw.inStep.stored h hgiven

end Followed

end World

/-! ## Recycled objects -/

/-- An object is stored as recycled. -/
def Store.Recycled (s : Store) (id : ObjectId) : Prop := ∃ p, s.place id = some p ∧ p.recycled = true

namespace World

/-- No more than one object is looked at. -/
theorem not_all (id : ObjectId) : ¬∀ other, other = id := fun hall => by
  have hzero := hall ⟨0⟩
  rw [← hall ⟨1⟩] at hzero
  cases hzero

/-- No move brings back the object that is looked at. -/
theorem recycled_followed (id : ObjectId) :
    Followed (fun other => other = id) (fun _ _ => True) fun s => s.Recycled id where
  moves := by
    rintro s t hmove ⟨p, hp, hrecycled⟩
    cases hmove with
    | apart hnext hplace => exact ⟨p, (hplace id rfl).trans hp, hrecycled⟩
    | created n parent hn hfirst hnext hsucc hnew hparent hplace =>
      have hne : id ≠ ⟨n⟩ := by
        rintro rfl
        rw [hp] at hnew
        cases hnew
      exact ⟨p, ((hplace id rfl).trans (if_neg hne)).trans hp, hrecycled⟩
    | recycled other q hid hold hnext hplace =>
      obtain rfl : other = id := hid
      exact ⟨_, (hplace other rfl).trans (if_pos rfl), rfl⟩
    | placed other q parent hid hold hparent hnext hclear hplace =>
      obtain rfl : other = id := hid
      rw [hp] at hold
      cases hold
      exact ⟨_, (hplace other rfl).trans (if_pos rfl), hrecycled⟩
  nothing _ := trivial
  still _ h := h
  stored _ _ _ := trivial
  nowhere hall := absurd hall (not_all id)

/-- Memory and store stay in step. -/
theorem inStep_followed (id : ObjectId) :
    Followed (fun other => other = id) (fun _ _ => True) fun _ => True where
  moves _ _ := trivial
  nothing _ := trivial
  still _ h := h
  stored _ _ _ := trivial
  nowhere hall := absurd hall (not_all id)

/-- Every parent may be named; an object gets one through its resident copy. -/
abbrev ThroughResident (id : ObjectId) : Operation → World → Prop :=
  Operation.Permitted (fun _ _ => True) (Resident fun other => other = id)

/-- Recycling is final: in a run that starts from an empty store, in which the parent of an object is
changed through its resident copy only, the object stays recycled once it is stored as that. -/
theorem Leads.recycled_stays {s : Store} (hs : s = .memory {} ∨ s = .durable {})
    (runtime : RuntimeSettings) {id : ObjectId} {n n' : Nat} {w w' : World}
    (hrun : Leads (ThroughResident id) n ((openSession runtime).run (initial s runtime)).2 w)
    (hlater : Leads (ThroughResident id) n' w w') (hnumbers : n + n' < 2 ^ 63)
    (hrecycled : w.store.Recycled id) : w'.store.Recycled id := by
  obtain ⟨hc, hstart⟩ := Placed.start (S := fun other => other = id) (Φ := fun _ => True) hs
    hnumbers runtime fun _ => trivial
  rw [Nat.add_comm] at hstart
  have hw := (inStep_followed id).upheld.leads hrun hc hstart
  have hw' : Placed (fun other => other = id) (fun s => s.Recycled id) n' w :=
    ⟨hw.numbered, hw.own, hw.inStep, hrecycled⟩
  rw [← Nat.zero_add n'] at hw'
  exact ((recycled_followed id).upheld.leads hlater (hrun.coherent hc) hw').kept

/-- A session in which the root and a child of it, object 1, have been created. -/
def parented : World :=
  (Operation.create .root {} {}).after
    (Operation.ensureRoot.after ((openSession {}).run (initial (.memory {}) {})).2)

/-- A recycled object that is loaded again and gets another parent stays recycled. -/
theorem Leads.recycled_stays_moved :
    let w := (Operation.recycle ⟨1⟩).after parented
    let w' := (Operation.setParent ⟨2⟩ .nothing).after ((Operation.load true ⟨1⟩).after w)
    w.store.Recycled ⟨1⟩ ∧ w'.store.Recycled ⟨1⟩ := by
  intro w w'
  have hcreated : Leads (ThroughResident ⟨1⟩) 2 ((openSession {}).run (initial (.memory {}) {})).2
      parented :=
    (Leads.next (.refl _) (.operate .ensureRoot) ⟨nofun, trivial⟩).next
      (.operate (.create .root {} {})) ⟨nofun, trivial⟩
  have hrun := hcreated.next (.operate (.recycle ⟨1⟩)) ⟨nofun, trivial⟩
  have hloaded : Leads (ThroughResident ⟨1⟩) 0 w ((Operation.load true ⟨1⟩).after w) :=
    (Leads.refl w).next (.operate (.load true ⟨1⟩)) ⟨nofun, trivial⟩
  have hgiven : ((Operation.load true ⟨1⟩).after w).session.Given ⟨2⟩ := by
    show 2 < _
    decide +kernel
  have hlater : Leads (ThroughResident ⟨1⟩) 0 w w' := hloaded.next (.operate (.setParent ⟨2⟩ .nothing))
    ⟨fun h hh => Option.some.inj hh ▸ hgiven, trivial, hgiven, fun _ => rfl⟩
  have hrecycled : w.store.Recycled ⟨1⟩ := ⟨⟨.root, true⟩, rfl, rfl⟩
  exact ⟨hrecycled, recycled_stays (.inl rfl) {} hrun hlater (by decide) hrecycled⟩

/-- A copy that was kept from before its object was recycled brings the object back: together with a
parent it writes the flag as it knows it. -/
theorem Leads.recycled_returns :
    let w := (Operation.recycle ⟨1⟩).after ((Operation.invalidate ⟨1⟩).after parented)
    let w' := (Operation.setParent ⟨1⟩ .nothing).after w
    Leads (fun _ _ => True) 2 ((openSession {}).run (initial (.memory {}) {})).2 w ∧
      Leads (fun _ _ => True) 0 w w' ∧ w.store.Recycled ⟨1⟩ ∧ ¬w'.store.Recycled ⟨1⟩ := by
  intro w w'
  have hcreated : Leads (fun _ _ => True) 2 ((openSession {}).run (initial (.memory {}) {})).2 parented :=
    (Leads.next (.refl _) (.operate .ensureRoot) ⟨nofun, trivial⟩).next
      (.operate (.create .root {} {})) ⟨nofun, trivial⟩
  have hrun := (hcreated.next (.operate (.invalidate ⟨1⟩)) ⟨nofun, trivial⟩).next
    (.operate (.recycle ⟨1⟩)) ⟨nofun, trivial⟩
  have hgiven : w.session.Given ⟨1⟩ := by
    show 1 < _
    decide +kernel
  refine ⟨hrun, (Leads.refl w).next (.operate (.setParent ⟨1⟩ .nothing))
    ⟨fun h hh => Option.some.inj hh ▸ hgiven, trivial⟩, ⟨⟨.root, true⟩, rfl, rfl⟩, ?_⟩
  rintro ⟨p, hp, hrecycled⟩
  have hplace : w'.store.place ⟨1⟩ = some ⟨.nothing, false⟩ := rfl
  rw [hplace] at hp
  cases hp
  cases hrecycled

end World

end Lineage
