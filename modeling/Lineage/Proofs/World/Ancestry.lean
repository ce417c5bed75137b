/-
  Lineage.Proofs.World.Ancestry

  No object is above itself.

  Giving an object a parent is refused where that closes a circle of the objects there
  are.  What this rests on is that the parents that are named are there already, or never
  will be (`Store.Nameable`): then nothing stored is below an object that is only now
  created, and no circle comes about (`Leads.no_circle`).  A parent that is created later
  may close one, and so may a parent that is given through an outdated copy
  (`Leads.circle_closed`).
-/
import Lineage.Proofs.World.Moves

namespace Lineage

-- Nothing here depends on what the compiler makes of a source, or on how a run goes.
attribute [local irreducible] Program.compile Machine.run

/-- A circle that takes one more step, from `a` to `b`, was there before, or `b` led to `a` already.
Induction on the way; what counts is the first and the last time that it takes the step. -/
theorem transGen_step {α : Type} {r r' : α → α → Prop} {a b : α}
    (hstep : ∀ x y, r' x y → r x y ∨ (x = a ∧ y = b)) {x : α} (hcircle : Relation.TransGen r' x x) :
    Relation.TransGen r x x ∨ Relation.ReflTransGen r b a := by
  have hways : ∀ y, Relation.TransGen r' x y →
      Relation.TransGen r x y ∨ (Relation.ReflTransGen r x a ∧ Relation.ReflTransGen r b y) := by
    intro y hway
    induction hway with
    | single hxy =>
      rcases hstep _ _ hxy with hxy | ⟨rfl, rfl⟩
      · exact .inl (.single hxy)
      · exact .inr ⟨.refl, .refl⟩
    | tail _ hyz ih =>
      rcases hstep _ _ hyz with hyz | ⟨rfl, rfl⟩
      · exact ih.imp (fun hway => hway.tail hyz) fun ⟨hxa, hby⟩ => ⟨hxa, hby.tail hyz⟩
      · exact .inr ⟨ih.elim (fun hway => hway.to_reflTransGen) And.left, .refl⟩
  exact (hways x hcircle).imp_right fun ⟨hxa, hbx⟩ => hbx.trans hxa

namespace Store

/-- No object will be created that has this id. -/
def Nameable (parent : ObjectId) (s : Store) : Prop :=
  parent = .nothing ∨ ∀ n, s.next = .ok n → parent.number.toInt < n.toInt

/-- No stored object is above itself, and none has a parent that is still to be created. -/
structure Ancestral (s : Store) : Prop where
  nowhere : s.place .nothing = none
  above : ∀ {id parent}, s.ChildOf id parent → Nameable parent s
  circles : ∀ id, ¬Relation.TransGen s.ChildOf id id

variable {s t : Store} {id parent : ObjectId}

theorem Nameable.still (hnext : t.next = s.next) (hp : Nameable parent s) : Nameable parent t :=
  hp.imp_right fun hlt n hn => hlt n (hnext ▸ hn)

/-- Where nothing is stored there are no circles. -/
theorem Ancestral.of_empty (hempty : ∀ id, s.place id = none) : s.Ancestral := by
  have hchild {id parent : ObjectId} : ¬s.ChildOf id parent := by
    rintro ⟨p, hp, -⟩
    rw [hempty] at hp
    cases hp
  refine ⟨hempty _, fun h => absurd h hchild, fun id hcircle => ?_⟩
  obtain ⟨other, hfirst, -⟩ := Relation.TransGen.head'_iff.mp hcircle
  exact hchild hfirst

/-- The children after one object has been put under a parent. -/
theorem childOf_put {recycled : Bool} (hplace : ∀ other,
      t.place other = if other = id then some ⟨parent, recycled⟩ else s.place other)
    {x y : ObjectId} (hchild : t.ChildOf x y) : s.ChildOf x y ∨ (x = id ∧ y = parent) := by
  obtain ⟨p, hp, rfl⟩ := hchild
  rw [hplace] at hp
  split at hp
  · rename_i hx
    cases hp
    exact .inr ⟨hx, rfl⟩
  · exact .inl ⟨p, hp, rfl⟩

/-- Nothing leads away from where nothing is stored. -/
theorem not_below (hparent : s.place parent = none) (hne : parent ≠ id) :
    ¬Relation.ReflTransGen s.ChildOf parent id := by
  intro hway
  rcases Relation.ReflTransGen.cases_head hway with heq | ⟨other, ⟨p, hp, -⟩, -⟩
  · exact hne heq
  · rw [hparent] at hp
    cases hp

namespace Ancestral

/-- One object is put under a parent that it is not above. -/
theorem put (hs : s.Ancestral) {recycled : Bool} (hplace : ∀ other,
      t.place other = if other = id then some ⟨parent, recycled⟩ else s.place other)
    (hid : id ≠ .nothing) (hstill : ∀ other, Nameable other s → Nameable other t)
    (hparent : Nameable parent s) (hclear : ¬Relation.ReflTransGen s.ChildOf parent id) :
    t.Ancestral where
  nowhere := (hplace _).trans ((if_neg hid.symm).trans hs.nowhere)
  above hchild := by
    rcases childOf_put hplace hchild with hold | ⟨-, rfl⟩
    · exact hstill _ (hs.above hold)
    · exact hstill _ hparent
  circles other hcircle :=
    (transGen_step (fun _ _ => childOf_put hplace) hcircle).elim (hs.circles other) hclear

/-- A move puts no object above itself. -/
theorem moved {S : ObjectId → Prop} (hall : ∀ other, S other) (hmove : Move S Nameable s t)
    (hs : s.Ancestral) : t.Ancestral := by
  have hstored {id : ObjectId} {p : Place} (hp : s.place id = some p) : id ≠ .nothing := by
    rintro rfl
    rw [hs.nowhere] at hp
    cases hp
  cases hmove with
  | apart hnext hplace =>
    have hsame : t.place = s.place := funext fun other => hplace other (hall other)
    have hchild : t.ChildOf = s.ChildOf := by
      funext x y
      rw [ChildOf, ChildOf, hsame]
    exact ⟨hsame ▸ hs.nowhere, fun h => (hs.above (hchild ▸ h)).still hnext, hchild ▸ hs.circles⟩
  | created n parent hn hfirst hnext hsucc hnew hparent hplace =>
    have hnothing : (ObjectId.mk n) ≠ .nothing := by
      intro heq
      obtain rfl : n = -1 := congrArg ObjectId.number heq
      exact absurd hfirst (by decide)
    have hbefore {other : ObjectId} (hother : Nameable other s) : other ≠ ⟨n⟩ := by
      rintro rfl
      rcases hother with heq | hlt
      · exact hnothing heq
      · exact absurd (hlt n hn) (Int.lt_irrefl _)
    have hstill (other : ObjectId) (hother : Nameable other s) : Nameable other t := by
      refine hother.imp_right fun hlt m hm => ?_
      obtain rfl : m = n + 1 := Except.ok.inj (hm.symm.trans hnext)
      have hlt := hlt n hn
      omega
    refine hs.put (fun other => hplace other (hall other)) hnothing hstill hparent fun hway => ?_
    -- Nothing has the new object as a parent, nor is it its own.
    rcases Relation.ReflTransGen.cases_tail hway with heq | ⟨other, -, hlast⟩
    · exact hbefore hparent heq.symm
    · exact hbefore (hs.above hlast) rfl
  | recycled id p _ hold hnext hplace =>
    have hchild : t.ChildOf = s.ChildOf := by
      funext x y
      refine propext ⟨fun h => ?_, fun h => ?_⟩
      · rcases childOf_put (fun other => hplace other (hall other)) h with h | ⟨rfl, rfl⟩
        · exact h
        · exact ⟨p, hold, rfl⟩
      · obtain ⟨q, hq, rfl⟩ := h
        have hnew := hplace x (hall x)
        split at hnew
        · rename_i hx
          rw [hx, hold] at hq
          cases hq
          exact ⟨_, hnew, rfl⟩
        · exact ⟨q, hnew.trans hq, rfl⟩
    refine ⟨?_, fun h => (hs.above (hchild ▸ h)).still hnext, hchild ▸ hs.circles⟩
    rw [hplace _ (hall _), if_neg (hstored hold).symm]
    exact hs.nowhere
  | placed id p parent _ hold hparent hnext hclear hplace =>
    refine hs.put (fun other => hplace other (hall other)) (hstored hold)
      (fun _ hother => hother.still hnext) hparent ?_
    by_cases hnothing : parent = .nothing
    · exact not_below (hnothing ▸ hs.nowhere) (hnothing ▸ (hstored hold).symm)
    · exact hclear hall hnothing

end Ancestral

end Store

namespace World

/-- Everything is looked at: no object comes to be above itself. -/
theorem ancestral_followed : Followed (fun _ => True) Store.Nameable Store.Ancestral where
  moves hmove hs := hs.moved (fun _ => trivial) hmove
  nothing _ := .inl rfl
  still hnext hp := hp.still hnext
  stored {k s p} hnumbered hown hp := by
    refine .inr fun n hn => ?_
    by_contra hle
    exact hp ((Store.read_eq_none hown).mp (hnumbered.unused n hn p (Int.not_lt.mp hle)))
  nowhere _ _ hs := hs.nowhere

/-- Objects get parents that are not still to be created, through resident copies. -/
abbrev Orderly : Operation → World → Prop :=
  Operation.Permitted (fun parent w => w.store.Nameable parent) (Resident fun _ => True)

/-- The parent of an object, as it is seen. -/
def ChildSeen (w : World) (id parent : ObjectId) : Prop :=
  ∃ c, w.seen id = .ok (some c) ∧ c.record.parent = parent

/-- In a run that starts from an empty store, in which no parent is named that is still to be created,
and none is given but through a resident copy, no object is above itself, neither as objects are stored
nor, unless the system has been closed, as they are seen. -/
theorem Leads.no_circle {s : Store} (hs : s = .memory {} ∨ s = .durable {}) (runtime : RuntimeSettings)
    {n : Nat} {w : World} (hrun : Leads Orderly n ((openSession runtime).run (initial s runtime)).2 w)
    (hnumbers : n < 2 ^ 63) (id : ObjectId) : ¬Relation.TransGen w.store.ChildOf id id ∧
      (w.session.writing = true → ¬Relation.TransGen w.ChildSeen id id) := by
  obtain ⟨hc, hstart⟩ := Placed.start (S := fun _ => True) (Φ := Store.Ancestral) hs
    hnumbers runtime .of_empty
  rw [← Nat.zero_add n] at hstart
  have hw := ancestral_followed.upheld.leads hrun hc hstart
  refine ⟨hw.kept.circles id, fun hwriting hcircle =>
    hw.kept.circles id (Relation.TransGen.mono ?_ _ _ hcircle)⟩
  rintro x y ⟨c, hseen, rfl⟩
  exact ⟨_, (hw.inStep.place_seen (hrun.coherent hc) hw.own hwriting trivial).2 c hseen, rfl⟩

/-- What has been named has a number below the next. -/
theorem nameable_below {w : World} {parent : ObjectId} {n : Int64} (hn : w.store.next = .ok n)
    (hlt : parent.number.toInt < n.toInt) : w.store.Nameable parent := by
  refine .inr fun m hm => ?_
  obtain rfl : n = m := Except.ok.inj (hn.symm.trans hm)
  exact hlt

/-- A session in which three objects have been created, each but the first below the one before. -/
def chained : World :=
  (Operation.create ⟨1⟩ {} {}).after ((Operation.create .root {} {}).after
    ((Operation.create .nothing {} {}).after ((openSession {}).run (initial (.memory {}) {})).2))

/-- The last object moves up, and the one that was above it moves below it. -/
theorem Leads.no_circle_moved :
    let w := (Operation.setParent ⟨1⟩ ⟨2⟩).after ((Operation.setParent ⟨2⟩ .root).after chained)
    w.store.ChildOf ⟨1⟩ ⟨2⟩ ∧ ¬Relation.TransGen w.store.ChildOf ⟨2⟩ ⟨2⟩ ∧
      (w.session.writing = true → ¬Relation.TransGen w.ChildSeen ⟨2⟩ ⟨2⟩) := by
  intro w
  have hfirst : Leads Orderly 1 ((openSession {}).run (initial (.memory {}) {})).2 _ :=
    (Leads.refl _).next (.operate (.create .nothing {} {})) ⟨nofun, .inl rfl⟩
  have hsecond := hfirst.next (.operate (.create .root {} {})) ⟨nofun, nameable_below (n := 1) rfl (by decide)⟩
  have hthird : Leads Orderly 3 _ chained :=
    hsecond.next (.operate (.create ⟨1⟩ {} {})) ⟨nofun, nameable_below (n := 2) rfl (by decide)⟩
  have hgiven₁ : chained.session.Given ⟨2⟩ := by
    show 2 < _
    decide +kernel
  have hmoved := hthird.next (.operate (.setParent ⟨2⟩ .root))
    ⟨fun h hh => Option.some.inj hh ▸ hgiven₁, nameable_below (n := 3) rfl (by decide), hgiven₁, fun _ => rfl⟩
  have hgiven₂ : ((Operation.setParent ⟨2⟩ .root).after chained).session.Given ⟨1⟩ := by
    show 1 < _
    decide +kernel
  have hrun : Leads Orderly 3 _ w := hmoved.next (.operate (.setParent ⟨1⟩ ⟨2⟩))
    ⟨fun h hh => Option.some.inj hh ▸ hgiven₂, nameable_below (n := 3) rfl (by decide), hgiven₂, fun _ => rfl⟩
  exact ⟨⟨⟨⟨2⟩, false⟩, rfl, rfl⟩, no_circle (.inl rfl) {} hrun (by decide) ⟨2⟩⟩

/-- A session in which nothing has been done. -/
def opened : World := ((openSession {}).run (initial (.memory {}) {})).2

/-- An object that has got a parent which is not there yet, and then that parent below it. -/
def parentFirst : World :=
  (Operation.create ⟨0⟩ {} {}).after ((Operation.setParent ⟨0⟩ ⟨1⟩).after
    ((Operation.create .nothing {} {}).after opened))

theorem parentFirst_leads :
    Leads (Operation.Permitted (fun _ _ => True) (Resident fun _ => True)) 2 opened parentFirst := by
  have hgiven : ((Operation.create .nothing {} {}).after opened).session.Given ⟨0⟩ := by
    show 0 < _
    decide +kernel
  have hfirst : Leads (Operation.Permitted (fun _ _ => True) (Resident fun _ => True)) 1 opened _ :=
    (Leads.refl _).next (.operate (.create .nothing {} {})) ⟨nofun, trivial⟩
  have hmoved := hfirst.next (.operate (.setParent ⟨0⟩ ⟨1⟩))
    ⟨fun h hh => Option.some.inj hh ▸ hgiven, trivial, hgiven, fun _ => rfl⟩
  exact hmoved.next (.operate (.create ⟨0⟩ {} {})) ⟨nofun, trivial⟩

/-- Three objects without parents, of which `#1` has another copy resident than that of its first handle. -/
def twoCopies : World :=
  (Operation.load false ⟨1⟩).after ((Operation.invalidate ⟨1⟩).after
    ((Operation.create .nothing {} {}).after ((Operation.create .nothing {} {}).after
      ((Operation.create .nothing {} {}).after opened))))

/-- `#1` has got the parent `#2` through its first handle, and then `#2` the parent `#1`. -/
def crossed : World :=
  (Operation.setParent ⟨2⟩ ⟨1⟩).after ((Operation.setParent ⟨1⟩ ⟨2⟩).after twoCopies)

theorem crossed_leads :
    Leads (Operation.Permitted (fun parent w => w.store.Nameable parent) fun _ _ => True) 3 opened
      crossed := by
  have hfirst : Leads (Operation.Permitted (fun parent w => w.store.Nameable parent) fun _ _ => True)
      1 opened _ := (Leads.refl _).next (.operate (.create .nothing {} {})) ⟨nofun, .inl rfl⟩
  have hsecond := hfirst.next (.operate (.create .nothing {} {})) ⟨nofun, .inl rfl⟩
  have hthird := hsecond.next (.operate (.create .nothing {} {})) ⟨nofun, .inl rfl⟩
  have hdropped := hthird.next (.operate (.invalidate ⟨1⟩)) ⟨nofun, trivial⟩
  have hloaded : Leads _ 3 opened twoCopies :=
    hdropped.next (.operate (.load false ⟨1⟩)) ⟨nofun, trivial⟩
  have hgiven₁ : twoCopies.session.Given ⟨1⟩ := by
    show 1 < _
    decide +kernel
  have hmoved := hloaded.next (.operate (.setParent ⟨1⟩ ⟨2⟩))
    ⟨fun h hh => Option.some.inj hh ▸ hgiven₁, nameable_below (n := 3) rfl (by decide), trivial⟩
  have hgiven₂ : ((Operation.setParent ⟨1⟩ ⟨2⟩).after twoCopies).session.Given ⟨2⟩ := by
    show 2 < _
    decide +kernel
  exact hmoved.next (.operate (.setParent ⟨2⟩ ⟨1⟩))
    ⟨fun h hh => Option.some.inj hh ▸ hgiven₂, nameable_below (n := 3) rfl (by decide), trivial⟩

/-- Neither restriction can be left out.  When a parent is created that has been named before, it can be
put below the object that has it.  And where an object gets a parent through a handle that is not
resident, its resident copy has none, and does not keep it from being put above that parent. -/
theorem Leads.circle_closed :
    (Leads (Operation.Permitted (fun _ _ => True) (Resident fun _ => True)) 2 opened parentFirst ∧
      Relation.TransGen parentFirst.store.ChildOf ⟨0⟩ ⟨0⟩) ∧
    (Leads (Operation.Permitted (fun parent w => w.store.Nameable parent) fun _ _ => True) 3 opened
        crossed ∧
      Relation.TransGen crossed.store.ChildOf ⟨1⟩ ⟨1⟩) := by
  have hchild {s : Store} {id parent : ObjectId} (hplace : s.place id = some ⟨parent, false⟩) :
      s.ChildOf id parent := ⟨_, hplace, rfl⟩
  refine ⟨⟨parentFirst_leads, ?_⟩, crossed_leads, ?_⟩
  · have hup : parentFirst.store.ChildOf ⟨0⟩ ⟨1⟩ := hchild (by decide +kernel)
    exact .tail (.single hup) (hchild (by decide +kernel))
  · have hup : crossed.store.ChildOf ⟨1⟩ ⟨2⟩ := hchild (by decide +kernel)
    exact .tail (.single hup) (hchild (by decide +kernel))

end World

end Lineage
