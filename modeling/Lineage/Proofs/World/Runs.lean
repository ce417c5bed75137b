/-
  Lineage.Proofs.World.Runs

  What happens to a system whose store nobody else edits.

  Somebody asks for an operation, the background writer writes, time passes, or the
  system is closed and opened again on the same store (`Happening`).  What is upheld is
  upheld by one happening (`Upheld.happens`), and by induction by a run of them
  (`Upheld.leads`).

  An invariant that does not ask what copies say, but of what objects they are and what is
  written, has to be looked at where records are written and where copies get into memory,
  and nowhere else (`Tended`).  It is upheld whatever is asked for (`Tended.upheld`).
-/
import Lineage.Proofs.World.Upkeep

namespace Lineage

-- Nothing here depends on what the compiler makes of a source, or on how a run goes.
attribute [local irreducible] Program.compile Machine.run

/-- What may happen. -/
inductive Happening where
  | operate (op : Operation)
  /-- The oldest of the waiting writes is applied. -/
  | write
  /-- Time passes. -/
  | wait (now : Timestamp)
  /-- A new session begins on the store.  Writes that still waited are lost. -/
  | reopen (runtime : RuntimeSettings)

namespace Happening

def after : Happening → World → World
  | operate op, w => op.after w
  | write, w => w.writeNext
  | wait now, w => { w with clock := now }
  | reopen runtime, w => ((World.openSession runtime).run w).2

/-- How many objects may be created. -/
def cost : Happening → Nat
  | operate op => op.cost
  | _ => 0

/-- Operations are given handles that were given out, and are permitted; clocks show moments. -/
def Proper (permitted : Operation → World → Prop) : Happening → World → Prop
  | operate op, w => (∀ h, op.handle? = some h → w.session.Given h) ∧ permitted op w
  | wait now, _ => now.Valid
  | write, _ | reopen _, _ => True

theorem Proper.mono {permitted permitted' : Operation → World → Prop} {e : Happening} {w : World}
    (he : e.Proper permitted w) (h : ∀ op w, permitted op w → permitted' op w) :
    e.Proper permitted' w := by
  cases e with
  | operate op => exact ⟨he.1, h op w he.2⟩
  | write => trivial
  | wait now => exact he
  | reopen runtime => trivial

end Happening

/-- A run in which at most so many objects may be created. -/
inductive World.Leads (permitted : Operation → World → Prop) : Nat → World → World → Prop
  | refl (w : World) : Leads permitted 0 w w
  | next {n : Nat} {w w₁ : World} (h : Leads permitted n w w₁) (e : Happening)
      (he : e.Proper permitted w₁) : Leads permitted (n + e.cost) w (e.after w₁)

namespace World

/-! ## Opening and closing -/

theorem openSession_run (w : World) (runtime : RuntimeSettings) : ((openSession runtime).run w).2 =
    { w with store := (Store.connect w.store).2, session := { runtime } } := by
  have hconnect : (Store.connect w.store).1 = .ok () := by
    cases w.store <;> rfl
  unfold openSession
  rw [run_bind, access_run, hconnect]
  rfl

theorem shutdown_run (w : World) : (shutdown.run w).2 = { w with
    store := (Store.disconnect w.drained).2
    session := { w.session with queue := [], writing := false } } := by
  unfold shutdown
  rw [run_lift_bind, access_run]
  rfl

/-! ## Runs -/

theorem Coherent.happens {permitted : Operation → World → Prop} {w : World} (hw : w.Coherent)
    (e : Happening) (he : e.Proper permitted w) : (e.after w).Coherent := by
  cases e with
  | operate op => exact hw.operate op he.1
  | write => exact hw.writeNext
  | wait now => exact ⟨hw.session, hw.store⟩
  | reopen runtime => exact (openSession_guards runtime).world hw

/-- What is permitted may be said in less detail.  Induction on the run. -/
theorem Leads.mono {permitted permitted' : Operation → World → Prop} {n : Nat} {w w' : World}
    (h : Leads permitted n w w') (hmono : ∀ op w, permitted op w → permitted' op w) :
    Leads permitted' n w w' := by
  induction h with
  | refl => exact .refl _
  | next _ e he ih => exact ih.next e (he.mono hmono)

/-- Induction on the run. -/
theorem Leads.coherent {permitted : Operation → World → Prop} {n : Nat} {w w' : World}
    (h : Leads permitted n w w') (hw : w.Coherent) : w'.Coherent := by
  induction h with
  | refl => exact hw
  | next _ e he ih => exact (ih hw).happens e he

namespace Upheld

variable {J : Nat → World → Prop} {allowed : ObjectId → World → Prop} {may : Handle → World → Prop}
  (hJ : Upheld J allowed may) {k n : Nat} {w w' : World}
include hJ

theorem happens (hc : w.Coherent) (e : Happening) (hw : J (k + e.cost) w)
    (he : e.Proper (Operation.Permitted allowed may) w) : J k (e.after w) := by
  cases e with
  | operate op => exact hJ.operate hc op hw he.1 he.2
  | write => exact hJ.written hc hw
  | wait now => exact hJ.waited hw now he
  | reopen runtime => exact hJ.reopened hc hw runtime

/-- Induction on the run; what happens next may still create what is left over. -/
theorem leads (h : Leads (Operation.Permitted allowed may) n w w') (hc : w.Coherent)
    (hw : J (k + n) w) : J k w' := by
  induction h generalizing k with
  | refl => exact hw
  | next hlead e he ih =>
    rw [Nat.add_comm _ e.cost, ← Nat.add_assoc] at hw
    exact hJ.happens (hlead.coherent hc) e (ih hc hw) he

end Upheld

end World

/-! ## What is upheld because every write keeps it -/

namespace World

/-- What each write keeps, with `k` objects that can still be created. -/
structure Tended (J : Nat → World → Prop) : Prop where
  ordered : ∀ {k w}, J k w → w.store.Ordered
  less : ∀ {k w}, J (k + 1) w → J k w
  same : ∀ {k} {w : World}, J k w → ∀ {s : Store}, s.Same w.store → J k { w with store := s }
  seeded : ∀ {k} {w : World}, J k w → ∀ seed, J k { w with seed }
  waited : ∀ {k} {w : World}, J k w → ∀ clock, clock.Valid → J k { w with clock }
  /-- It does not matter which copies are resident, nor what is kept compiled. -/
  indifferent : ∀ {k} {w : World}, J k w → ∀ resident compiled compilations writing,
    J k { w with session := { w.session with resident, compiled, compilations, writing } }
  changed : ∀ {k} {w : World}, J k w → ∀ h {f : Copy → Copy},
    (f (w.session.copyOf h)).record.id = (w.session.copyOf h).record.id →
      J k { w with session := w.session.change h f }
  adopted : ∀ {k} {w : World}, J k w → ∀ {r : Record}, w.store.read r.id = .ok (some r) →
    J k { w with session := w.session.adopting r }
  queued : ∀ {k} {w : World}, J k w → ∀ id (c : Copy), J k { w with session :=
    { w.session with queue := w.session.queue ++ [⟨id, c.update w.clock⟩] } }
  written : ∀ {k w}, w.Coherent → J k w → J k w.writeNext
  updated : ∀ {k} {w : World}, w.Coherent → J k w → ∀ id (c : Copy),
    J k { w with store := (Store.update id (c.update w.clock) w.store).2 }
  created : ∀ {k} {w : World}, w.Coherent → J (k + 1) w → ∀ r : Record, r.created = w.clock →
    r.modified = w.clock → J k { w with store := (Store.create r w.store).2 } ∧
      ∀ id, (Store.create r w.store).1 = .ok id → J k { w with
        store := (Store.create r w.store).2
        session := w.session.adopting { r with id } }
  disconnected : ∀ {k} {w : World}, J k w → J k { w with store := (Store.disconnect w.store).2 }
  reopened : ∀ {k} {w : World}, J k w → ∀ runtime,
    J k { w with store := (Store.connect w.store).2, session := { runtime } }

theorem settled_eq_writeNext {job : Job} {rest : List Job} {w : World}
    (hqueue : w.session.queue = job :: rest) :
    w.settled = w.writeNext.settled ∧ w.writeNext.session.queue = rest := by
  unfold World.writeNext
  rw [hqueue]
  refine ⟨?_, rfl⟩
  show { w with store := w.drained, session := { w.session with queue := [] } } = _
  rw [drained, hqueue]
  rfl

theorem settled_eq_self {w : World} (hqueue : w.session.queue = []) : w.settled = w := by
  obtain ⟨store, ⟨runtime, copies, resident, compiled, compilations, queue, writing⟩, clock, seed⟩ := w
  obtain rfl : queue = [] := hqueue
  rfl

/-- What each of the waiting writes keeps, all of them keep.  Induction on the waiting writes. -/
theorem settled_of_writeNext {I : World → Prop} (hI : ∀ {w : World}, w.Coherent → I w → I w.writeNext)
    {w : World} (hc : w.Coherent) (hw : I w) : I w.settled := by
  generalize hqueue : w.session.queue = queue
  induction queue generalizing w with
  | nil => rwa [settled_eq_self hqueue]
  | cons job rest ih =>
    obtain ⟨hsettled, hrest⟩ := settled_eq_writeNext hqueue
    rw [hsettled]
    exact ih hc.writeNext (hI hc hw) hrest

namespace Tended

variable {J : Nat → World → Prop} (hJ : Tended J) {k : Nat} {w : World}
include hJ

theorem settled (hc : w.Coherent) (hw : J k w) : J k w.settled :=
  settled_of_writeNext hJ.written hc hw

theorem steady (k : Nat) : Steady (J k) where
  same := hJ.same
  settled := hJ.settled
  adopted _ hw _ _ hread _ := hJ.adopted hw hread

theorem sent (hw : J k w) (h : Handle) : J k (w.sent h) := hJ.changed hw h rfl

omit hJ in
theorem sent_coherent (hc : w.Coherent) (h : Handle) : (w.sent h).Coherent :=
  onCopy_keeps (f := fun c => c.written w.clock) h (fun _ => rfl) (fun _ => rfl) w hc

theorem save (hc : w.Coherent) (hw : J k w) (h : Handle) : J k ((save h).run w).2 := by
  by_cases hclean : (w.session.copyOf h).dirty.isClean = true
  · rw [save_clean hclean]
    exact hw
  · rw [save_dirty (Bool.eq_false_iff.mpr hclean)]
    by_cases hwriting : (w.sent h).session.writing = true
    · have hsent := sent_coherent hc h
      have hupdated := hJ.updated (settle_keeps _ hsent) (hJ.settled hsent (hJ.sent hw h))
        (w.session.copyOf h).record.id (w.session.copyOf h)
      rw [writeNow_run hwriting]
      dsimp only
      cases (Store.update (w.session.copyOf h).record.id ((w.session.copyOf h).update w.clock)
          (w.sent h).drained).1 with
      | ok _ => exact hupdated
      | error e => exact hJ.changed hupdated h rfl
    · rw [writeNow_stopped (Bool.not_eq_true _ ▸ hwriting)]
      exact hJ.changed (hJ.sent hw h) h rfl

theorem saveLater (hw : J k w) (h : Handle) : J k (saveLater h w).2 := by
  by_cases hclean : (w.session.copyOf h).dirty.isClean = true
  · rw [saveLater_clean hclean]
    exact hw
  · rw [saveLater_dirty (Bool.eq_false_iff.mpr hclean)]
    by_cases hwriting : (w.sent h).session.writing = true
    · rw [writeLater_run hwriting]
      exact hJ.queued (hJ.sent hw h) _ _
    · rw [writeLater_stopped (Bool.not_eq_true _ ▸ hwriting)]
      exact hJ.sent hw h

theorem invalidate (hw : J k w) (id : ObjectId) : J k (invalidate id w).2 :=
  hJ.indifferent hw _ _ w.session.compilations w.session.writing

theorem refresh (hc : w.Coherent) (hw : J k w) (h : Handle) : J k ((refresh h).run w).2 := by
  have hreread (id : ObjectId) : J k (w.reread id) :=
    hJ.same (hJ.settled (invalidate_keeps id w hc) (hJ.invalidate hw id)) (Store.fetch_same id w.drained)
  rw [refresh_run]
  rcases hfetch : (Store.fetch (w.session.copyOf h).record.id w.drained).1 with e | _ | record
  · exact hreread _
  · exact hreread _
  · have hid := Store.fetch_id (applyJobs_faithful hc.store w.session.queue) hfetch
    exact hJ.indifferent (w := { w.reread (w.session.copyOf h).record.id with
      session := (w.reread (w.session.copyOf h).record.id).session.change h fun _ => { record } })
      (hJ.changed (hreread _) h hid) _ _ _ _

theorem create (hc : w.Coherent) (hw : J (k + 1) w) (parent : ObjectId)
    (properties : OrderedDict String Value) (methods : OrderedDict String MethodDef) :
    J k ((create parent properties methods).run w).2 := by
  obtain ⟨hcreated, hadopted⟩ := hJ.created (settle_keeps w hc) (hJ.settled hc hw)
    (draft parent properties methods w.clock) rfl rfl
  rw [create_eq]
  rcases hrun : Store.create (draft parent properties methods w.clock) w.drained with ⟨e | id, s⟩
  · rw [show (settle w).2.store = w.drained from rfl, hrun] at hcreated
    exact hcreated
  · rw [show (settle w).2.store = w.drained from rfl, hrun] at hcreated hadopted
    dsimp only
    cases hres : w.session.resident.get? id with
    | some h =>
      rw [adopt_resident hres]
      exact hcreated
    | none =>
      rw [adopt_absent hres]
      exact hadopted id rfl

theorem onCopy (h : Handle) {f : Copy → Copy} (hid : ∀ c, (f c).record.id = c.record.id)
    (hmethods : ∀ c, (f c).record.methods = c.record.methods) :
    Keeps (fun w => w.Coherent ∧ J k w) (onCopy h f) :=
  fun w hw => ⟨onCopy_keeps h hid hmethods w hw.1, hJ.changed hw.2 h (hid _)⟩

theorem saves (h : Handle) : Guards (fun w => w.Coherent ∧ J k w) (World.save h) :=
  Upheld.guards (save_guards h) fun _ hc hw => hJ.save hc hw h

theorem recycle (id : ObjectId) : Guards (fun w => w.Coherent ∧ J k w) (recycle id) :=
  .bind (((hJ.steady k).object id).mono fun _ _ hw => hw.1) fun h =>
    .bind (.lift (hJ.onCopy h (fun _ => rfl) fun _ => rfl)) fun _ =>
    .bind (.lift (hJ.onCopy h (fun _ => rfl) fun _ => rfl)) fun _ =>
    .bind (hJ.saves h) fun _ =>
    .lift fun w hw => ⟨invalidate_keeps id w hw.1, hJ.invalidate hw.2 id⟩

theorem reparent (h : Handle) (parent : ObjectId) :
    Guards (fun w => w.Coherent ∧ J k w) (reparent h parent) :=
  .bind (.lift (hJ.onCopy h (fun _ => rfl) fun _ => rfl)) fun _ =>
    .bind (.lift (hJ.onCopy h (fun _ => rfl) fun _ => rfl)) fun _ =>
    .bind (hJ.saves h) fun _ => .pure _ fun _ hw => hw

theorem setParent (hc : w.Coherent) (hw : J k w) (h : Handle) (parent : ObjectId) :
    J k ((setParent h parent).run w).2 := by
  have hallow := (hJ.steady k).allowParent (w.session.copyOf h).record.id parent w ⟨hc, hw⟩
  rw [setParent_run]
  rcases hrun : (allowParent (w.session.copyOf h).record.id parent).run w with ⟨e | _, w₁⟩
  · rw [hrun] at hallow
    exact hallow.2
  · rw [hrun] at hallow
    exact ((hJ.reparent h parent).world hallow).2

theorem shutdown (hc : w.Coherent) (hw : J k w) : J k (shutdown.run w).2 := by
  have hstopped : J k { w.settled with session := { w.settled.session with writing := false } } :=
    hJ.indifferent (hJ.settled hc hw) _ _ _ _
  rw [shutdown_run]
  exact hJ.disconnected hstopped

/-- What each write keeps is upheld, whatever parents objects get. -/
theorem upheld : Upheld J (fun _ _ => True) fun _ _ => True where
  steady := hJ.steady
  ordered := hJ.ordered
  less := hJ.less
  compiled hw compiled compilations := hJ.indifferent hw _ compiled compilations _
  seeded := hJ.seeded
  changed hw h _ hf := hJ.changed hw h (hf.id _)
  written := hJ.written
  save := hJ.save
  saveLater _ := hJ.saveLater
  refresh hc hw h _ := hJ.refresh hc hw h
  invalidate _ := hJ.invalidate
  create hc hw parent properties methods _ := hJ.create hc hw parent properties methods
  recycle hc hw id := ((hJ.recycle id).world ⟨hc, hw⟩).2
  setParent hc hw h parent _ _ := hJ.setParent hc hw h parent
  shutdown := hJ.shutdown
  waited := hJ.waited
  reopened _ hw runtime := openSession_run _ runtime ▸ hJ.reopened hw runtime
  still _ := ⟨fun _ _ _ => trivial, fun _ _ => trivial, fun _ _ _ _ _ _ => trivial⟩
  nothing _ := trivial
  resident _ _ _ _ _ := ⟨trivial, trivial⟩

end Tended

end World

end Lineage
