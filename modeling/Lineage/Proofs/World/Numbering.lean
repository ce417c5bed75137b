/-
  Lineage.Proofs.World.Numbering

  The numbers of objects, and the texts that are stored.

  Objects are numbered in the order in which they are created, from zero.  As long as the
  numbers last, none is in use that is still to be given: neither is an object stored
  under it, nor does a copy carry it (`World.Numbered`).  Whatever happens, it stays so
  (`numbered_upheld`).

  Every text in the tables of a store that nobody else edits was written by the store
  itself (`Store.Own`), because every write that is made or waits is marked with a moment
  (`World.Own`).  This stays so too (`own_upheld`).
-/
import Lineage.Proofs.Store.Places
import Lineage.Proofs.World.Runs

namespace Lineage

-- Nothing here depends on what the compiler makes of a source, or on how a run goes.
attribute [local irreducible] Program.compile Machine.run

/-! ## Copies -/

namespace Session

variable {s : Session} {P : Copy → Prop}

/-- Every copy is like this. -/
def All (P : Copy → Prop) (s : Session) : Prop := ∀ h, s.Given h → P (s.copyOf h)

theorem All.none (runtime : RuntimeSettings) : All P { runtime } := by
  intro h hgiven
  cases hgiven

theorem All.change (hs : s.All P) (h : Handle) {f : Copy → Copy}
    (hf : s.Given h → P (f (s.copyOf h))) : (s.change h f).All P := by
  intro g hg
  have hgiven := (given_change f).mp hg
  by_cases hgh : g = h
  · subst hgh
    rw [copyOf_change_self hgiven]
    exact hf hgiven
  · rw [copyOf_change_ne hgh]
    exact hs g hgiven

theorem All.adopting (hs : s.All P) {r : Record} (hr : P { record := r }) : (s.adopting r).All P := by
  intro g hg
  have hsize : (s.adopting r).copies.size = s.copies.size + 1 := Array.size_push ..
  have hindex : g.index < (s.adopting r).copies.size := hg
  by_cases hgiven : s.Given g
  · rw [copyOf_adopting hgiven]
    exact hs g hgiven
  · have hold : ¬g.index < s.copies.size := hgiven
    obtain rfl : g = ⟨s.copies.size⟩ := congrArg Handle.mk (by omega : g.index = s.copies.size)
    rw [copyOf_adopting_new]
    exact hr

end Session

/-! ## Numbers in a store -/

/-- `k` numbers can still be given, and nothing is stored under any that is. -/
structure Store.Numbered (k : Nat) (s : Store) : Prop where
  ordered : s.Ordered
  first : ∀ n, s.next = .ok n → 0 ≤ n.toInt
  fits : ∀ n, s.next = .ok n → n.toInt + k < 2 ^ 63
  unused : ∀ n, s.next = .ok n → ∀ id : ObjectId, n.toInt ≤ id.number.toInt → s.read id = .ok none

namespace Store.Numbered

variable {s t : Store} {k : Nat}

theorem less (hs : s.Numbered (k + 1)) : s.Numbered k :=
  ⟨hs.ordered, hs.first, fun n hn => by
    have hfits := hs.fits n hn
    omega, hs.unused⟩

/-- What is read is what matters. -/
theorem of_reads (hs : s.Numbered k) (hordered : t.Ordered) (hnext : t.next = s.next)
    (hread : ∀ id, s.read id = .ok none → t.read id = .ok none) : t.Numbered k where
  ordered := hordered
  first n hn := hs.first n (hnext ▸ hn)
  fits n hn := hs.fits n (hnext ▸ hn)
  unused n hn id hid := hread id (hs.unused n (hnext ▸ hn) id hid)

theorem same (hs : s.Numbered k) (ht : t.Same s) : t.Numbered k :=
  hs.of_reads (ht.ordered.mpr hs.ordered) ht.next fun id hid => (congrFun ht.read id).trans hid

theorem update (hs : s.Numbered k) (hf : s.Faithful) (id : ObjectId) (u : Update) :
    (Store.update id u s).2.Numbered k :=
  hs.of_reads ((update_wrote hf id u).ordered hs.ordered) (next_update id u s)
    fun _ hother => read_update_absent hf hother id u

theorem connect (hs : s.Numbered k) : (Store.connect s).2.Numbered k := by
  refine hs.of_reads ?_ ?_ fun id hid => ?_ <;> cases s <;> first | exact hs.ordered | rfl | exact hid

theorem disconnect (hs : s.Numbered k) : (Store.disconnect s).2.Numbered k := by
  refine hs.of_reads ?_ ?_ fun id hid => ?_ <;> cases s <;> first | exact hs.ordered | rfl | exact hid

/-- A number is followed by the next. -/
theorem toInt_succ (hs : s.Numbered (k + 1)) {n : Int64} (hn : s.next = .ok n) :
    (n + 1).toInt = n.toInt + 1 := by
  have hfits := hs.fits n hn
  have hone : (1 : Int64).toInt = 1 := rfl
  have hle := n.le_toInt
  rw [Int64.toInt_add, hone, Int.bmod_def]
  omega

theorem wrote (hs : s.Numbered (k + 1)) {n : Int64} (hn : s.next = .ok n) (ht : Wrote ⟨n⟩ s t)
    (hnext : t.next = .ok (n + 1)) : t.Numbered k := by
  have hsucc := hs.toInt_succ hn
  have hnew : ∀ m, t.next = .ok m → m = n + 1 := fun m hm => Except.ok.inj (hm.symm.trans hnext)
  refine ⟨ht.ordered hs.ordered, fun m hm => ?_, fun m hm => ?_, fun m hm id hid => ?_⟩
  · have hfirst := hs.first n hn
    rw [hnew m hm, hsucc]
    omega
  · have hfits := hs.fits n hn
    rw [hnew m hm, hsucc]
    omega
  · rw [hnew m hm, hsucc] at hid
    have hne : id ≠ ⟨n⟩ := by
      rintro rfl
      dsimp only at hid
      omega
    rw [ht.others id hne]
    exact hs.unused n hn id (by omega)

end Store.Numbered

/-! ## Numbers in a world -/

namespace World

/-- No number is in use that is still to be given. -/
structure Numbered (k : Nat) (w : World) : Prop where
  store : w.store.Numbered k
  copies : ∀ n, w.store.next = .ok n →
    w.session.All fun c => c.record.id.number.toInt < n.toInt

namespace Numbered

variable {k : Nat} {w : World}

/-- The store is written, but no number is given. -/
theorem stored (hw : w.Numbered k) {s : Store} (hs : s.Numbered k) (hnext : s.next = w.store.next) :
    Numbered k { w with store := s } :=
  ⟨hs, fun n hn => hw.copies n (hnext ▸ hn)⟩

theorem created (hc : w.Coherent) (hw : w.Numbered (k + 1)) (r : Record) :
    Numbered k { w with store := (Store.create r w.store).2 } ∧
      ∀ id, (Store.create r w.store).1 = .ok id → Numbered k { w with
        store := (Store.create r w.store).2
        session := w.session.adopting { r with id } } := by
  by_cases hconnected : w.store.isConnected = true
  · cases hnext : w.store.next with
    | error e =>
      rw [Store.create_failed hconnected hnext]
      exact ⟨⟨hw.store.less, hw.copies⟩, nofun⟩
    | ok n =>
      obtain ⟨t, hrun, hwrote, hnext'⟩ := Store.create_run hconnected hc.store hnext r
      have ht := hw.store.wrote hnext hwrote hnext'
      have hsucc := hw.store.toInt_succ hnext
      have hcopies : w.session.All fun c => c.record.id.number.toInt < (n + 1).toInt := fun h hgiven => by
        have hlt := hw.copies n hnext h hgiven
        omega
      have hnew : ∀ m, t.next = .ok m → m = n + 1 := fun m hm => Except.ok.inj (hm.symm.trans hnext')
      rw [hrun]
      refine ⟨⟨ht, fun m hm => hnew m hm ▸ hcopies⟩, fun id hid => ?_⟩
      cases hid
      refine ⟨ht, fun m hm => hnew m hm ▸ hcopies.adopting ?_⟩
      show n.toInt < (n + 1).toInt
      omega
  · rw [Store.create_offline (Bool.not_eq_true _ ▸ hconnected)]
    exact ⟨⟨hw.store.less, hw.copies⟩, nofun⟩

/-- What can be read has a number that has been given. -/
theorem adopted (hw : w.Numbered k) {r : Record} (hread : w.store.read r.id = .ok (some r)) :
    Numbered k { w with session := w.session.adopting r } := by
  refine ⟨hw.store, fun n hn => (hw.copies n hn).adopting ?_⟩
  by_contra hle
  have hnone := hw.store.unused n hn r.id (Int.not_lt.mp hle)
  rw [hread] at hnone
  cases hnone

theorem tended : Tended Numbered where
  ordered hw := hw.store.ordered
  less hw := ⟨hw.store.less, hw.copies⟩
  same hw _ hs := hw.stored (hw.store.same hs) hs.next
  seeded hw _ := ⟨hw.store, hw.copies⟩
  waited hw _ _ := ⟨hw.store, hw.copies⟩
  indifferent hw _ _ _ _ := ⟨hw.store, hw.copies⟩
  changed hw h _ hid := ⟨hw.store, fun n hn => (hw.copies n hn).change h fun hgiven => by
    rw [hid]
    exact hw.copies n hn h hgiven⟩
  adopted := adopted
  queued hw _ _ := ⟨hw.store, hw.copies⟩
  written {k w} hc hw := by
    unfold World.writeNext
    cases w.session.queue with
    | nil => exact hw
    | cons job rest =>
      have hstored := hw.stored (hw.store.update hc.store job.id job.update)
        (Store.next_update job.id job.update w.store)
      exact ⟨hstored.store, hstored.copies⟩
  updated hc hw id c := hw.stored (hw.store.update hc.store id _) (Store.next_update id _ _)
  created hc hw r _ _ := created hc hw r
  disconnected {k w} hw := hw.stored hw.store.disconnect (by cases w.store <;> rfl)
  reopened hw runtime := ⟨hw.store.connect, fun _ _ => .none runtime⟩

/-- A system over a store in which nothing is stored yet. -/
theorem coherent_initial {s : Store} (hs : s = .memory {} ∨ s = .durable {})
    (runtime : RuntimeSettings) : (initial s runtime).Coherent := by
  refine ⟨.start runtime, ?_⟩
  rcases hs with rfl | rfl
  · exact .memory_nil
  · exact .durable_nil

/-- Where nothing is stored, all numbers are still to be given. -/
theorem start {s : Store} (hs : s = .memory {} ∨ s = .durable {}) (hk : k < 2 ^ 63)
    (runtime : RuntimeSettings) : (initial s runtime).Numbered k := by
  have hstore : s.Numbered k := by
    rcases hs with rfl | rfl
    · refine ⟨.nil, fun n hn => ?_, fun n hn => ?_, fun n hn id _ => rfl⟩
      all_goals
        have hzero : n.toInt = 0 := by
          cases hn
          rfl
        omega
    · refine ⟨.nil, fun n hn => ?_, fun n hn => ?_, fun n hn id _ => rfl⟩
      all_goals
        have hzero : n.toInt = 0 := by
          cases hn
          rfl
        omega
  exact ⟨hstore, fun _ _ => .none runtime⟩

end Numbered

/-- Whatever happens, numbers that are still to be given are not in use. -/
theorem numbered_upheld : Upheld Numbered (fun _ _ => True) fun _ _ => True := Numbered.tended.upheld

end World

/-! ## Texts in a store -/

theorem Copy.update_timed (c : Copy) {now : Timestamp} (hnow : now.Valid) : (c.update now).Timed := by
  intro t ht
  cases ht
  exact hnow

namespace World

/-- What is stored is the store's own, and so is what will be. -/
structure Own (w : World) : Prop where
  store : w.store.Own
  clock : w.clock.Valid
  queue : ∀ job ∈ w.session.queue, job.update.Timed

namespace Own

variable {w : World}

theorem stored (hw : w.Own) {s : Store} (hs : s.Own) : Own { w with store := s } :=
  ⟨hs, hw.clock, hw.queue⟩

theorem writeNext (hw : w.Own) : w.writeNext.Own := by
  unfold World.writeNext
  cases hqueue : w.session.queue with
  | nil => exact hw
  | cons job rest =>
    have hjobs := hqueue ▸ hw.queue
    exact ⟨hw.store.update job.id (hjobs job List.mem_cons_self), hw.clock,
      fun job he => hjobs job (List.mem_cons_of_mem _ he)⟩

theorem settled (hw : w.Own) (hc : w.Coherent) : w.settled.Own :=
  settled_of_writeNext (fun _ hw => hw.writeNext) hc hw

theorem drained (hw : w.Own) (hc : w.Coherent) : w.drained.Own := (hw.settled hc).store

/-- Numbers are tended anyway. -/
theorem tended : Tended fun k w => w.Numbered k ∧ w.Own where
  ordered hw := hw.1.store.ordered
  less hw := ⟨Numbered.tended.less hw.1, hw.2⟩
  same hw _ hs := ⟨Numbered.tended.same hw.1 hs, hw.2.stored (hs.own.mpr hw.2.store)⟩
  seeded hw seed := ⟨Numbered.tended.seeded hw.1 seed, hw.2.store, hw.2.clock, hw.2.queue⟩
  waited hw now hnow := ⟨Numbered.tended.waited hw.1 now hnow, hw.2.store, hnow, hw.2.queue⟩
  indifferent hw _ _ _ _ :=
    ⟨Numbered.tended.indifferent hw.1 _ _ _ _, hw.2.store, hw.2.clock, hw.2.queue⟩
  changed hw h _ hid := ⟨Numbered.tended.changed hw.1 h hid, hw.2.store, hw.2.clock, hw.2.queue⟩
  adopted hw _ hread := ⟨Numbered.tended.adopted hw.1 hread, hw.2.store, hw.2.clock, hw.2.queue⟩
  queued hw id c := by
    refine ⟨Numbered.tended.queued hw.1 id c, hw.2.store, hw.2.clock, fun job hjob => ?_⟩
    rcases List.mem_append.mp hjob with hjob | hjob
    · exact hw.2.queue job hjob
    · rw [List.mem_singleton.mp hjob]
      exact c.update_timed hw.2.clock
  written hc hw := ⟨Numbered.tended.written hc hw.1, hw.2.writeNext⟩
  updated hc hw id c :=
    ⟨Numbered.tended.updated hc hw.1 id c, hw.2.stored (hw.2.store.update id (c.update_timed hw.2.clock))⟩
  created hc hw r hcreated hmodified := by
    have hnumbered := Numbered.tended.created hc hw.1 r hcreated hmodified
    have hown := hw.2.store.create (hcreated ▸ hw.2.clock) (hmodified ▸ hw.2.clock)
    exact ⟨⟨hnumbered.1, hown, hw.2.clock, hw.2.queue⟩,
      fun id hid => ⟨hnumbered.2 id hid, hown, hw.2.clock, hw.2.queue⟩⟩
  disconnected hw := ⟨Numbered.tended.disconnected hw.1, hw.2.stored hw.2.store.disconnect⟩
  reopened hw runtime :=
    ⟨Numbered.tended.reopened hw.1 runtime, hw.2.store.connect, hw.2.clock, nofun⟩

theorem start {s : Store} (hs : s = .memory {} ∨ s = .durable {}) (runtime : RuntimeSettings) :
    (initial s runtime).Own := by
  refine ⟨?_, Timestamp.epoch_valid, nofun⟩
  rcases hs with rfl | rfl
  · trivial
  · exact .nil

end Own

/-- Whatever happens, what is stored is the store's own. -/
theorem own_upheld : Upheld (fun k w => w.Numbered k ∧ w.Own) (fun _ _ => True) fun _ _ => True :=
  Own.tended.upheld

end World

end Lineage
