/-
  Lineage.Proofs.World.Shadowing

  What a change of one entry does to every lookup.

  Setting or removing a property or a method changes the one copy that it is made in, at
  one path, and nothing else (`World.Edited`).  So exactly those lookups come to something
  else that ask for the same name and meet the copy before any other owner of it: what has
  been set hides what they found, and what has been removed gives way to what lies above
  (`World.Reachable.shadowing`).
-/
import Lineage.Proofs.Record.Paths
import Lineage.Proofs.World.ChainChanges
import Lineage.Proofs.World.Lookups

namespace Lineage

namespace World

variable {w w' : World} {h : Handle}

/-! ## Changes of one entry -/

/-- One copy has come to something else at one path, which is marked if it was touched.  No other
copy and nothing that is stored or waits to be written has changed. -/
structure Edited (w w' : World) (h : Handle) (p : Path) (now : Content) (touched : Prop) :
    Prop where
  others : ∀ g, g ≠ h → w'.session.copyOf g = w.session.copyOf g
  resident : w'.session.resident = w.session.resident
  store : w'.store = w.store
  queue : w'.session.queue = w.session.queue
  id : (w'.session.copyOf h).record.id = (w.session.copyOf h).record.id
  there : (w'.session.copyOf h).record.content p = now
  elsewhere : ∀ q, q ≠ p →
    (w'.session.copyOf h).record.content q = (w.session.copyOf h).record.content q
  marks : ∀ q, (w'.session.copyOf h).dirty.Marks q ↔
    (q = p ∧ touched) ∨ (w.session.copyOf h).dirty.Marks q

namespace Edited

variable {id : ObjectId} {p : Path} {now : Content} {touched : Prop}

theorem of_change (hgiven : w.session.Given h) {f : Copy → Copy}
    (hid : (f (w.session.copyOf h)).record.id = (w.session.copyOf h).record.id)
    (hthere : (f (w.session.copyOf h)).record.content p = now)
    (helsewhere : ∀ q, q ≠ p →
      (f (w.session.copyOf h)).record.content q = (w.session.copyOf h).record.content q)
    (hmarks : ∀ q, (f (w.session.copyOf h)).dirty.Marks q ↔
      q = p ∨ (w.session.copyOf h).dirty.Marks q)
    (htouched : touched) : Edited w { w with session := w.session.change h f } h p now touched := by
  have hcopy := Session.copyOf_change_self hgiven f
  refine ⟨fun g hg => Session.copyOf_change_ne hg f, rfl, rfl, rfl, ?_, ?_, fun q hq => ?_,
    fun q => ?_⟩
  · rw [hcopy, hid]
  · rw [hcopy, hthere]
  · rw [hcopy, helsewhere q hq]
  · rw [hcopy, hmarks, and_iff_left htouched]

/-- What has been compiled is no part of it. -/
theorem forgetting (he : Edited w w' h p now touched) (definer : ObjectId) (name : String) :
    Edited w { w' with session := w'.session.forgetting definer name } h p now touched := by
  have hcopy := fun g => Session.copyOf_forgetting w'.session g definer name
  have hsession : (w'.session.forgetting definer name).resident = w'.session.resident ∧
      (w'.session.forgetting definer name).queue = w'.session.queue := by
    unfold Session.forgetting
    cases w'.session.compiled.get? definer <;> exact ⟨rfl, rfl⟩
  refine ⟨fun g hg => (hcopy g).trans (he.others g hg), hsession.1.trans he.resident, he.store,
    hsession.2.trans he.queue, ?_, ?_, fun q hq => ?_, fun q => ?_⟩
  · rw [hcopy, he.id]
  · rw [hcopy, he.there]
  · rw [hcopy, he.elsewhere q hq]
  · rw [hcopy, he.marks]

/-- There was nothing to be changed. -/
theorem untouched (w : World) (h : Handle) {p : Path}
    (hthere : (w.session.copyOf h).record.content p = now) (htouched : ¬touched) :
    Edited w w h p now touched :=
  ⟨fun _ _ => rfl, rfl, rfl, rfl, rfl, hthere, fun _ _ => rfl, fun _ =>
    ⟨.inr, fun hmarks => hmarks.resolve_left fun ht => htouched ht.2⟩⟩

theorem swapped (he : Edited w w' h p now touched) (hp : p ≠ .header) (hw : w.Coherent)
    (hw' : w'.Coherent) (hat : w.At id h) : Swapped w w' h := by
  have hnamed := hw.session.named id h hat
  have hat' : w'.At id h := by rw [At, he.resident]; exact hat
  have hheader := he.elsewhere .header (Ne.symm hp)
  refine ⟨hw, hw', ⟨he.id, (Content.header.inj hheader).1, ⟨_, ?_, rfl⟩, ⟨_, ?_, rfl⟩,
    fun other hne => ?_⟩, he.others⟩
  · rw [hnamed, hat.met]
  · rw [hnamed, hat'.met]
  · have hdrained : w'.drained = w.drained := by rw [drained, drained, he.store, he.queue]
    rw [met, met, he.resident, hdrained]
    cases hres : w.session.resident.get? other with
    | none => rfl
    | some g =>
      -- Only the object itself has the copy that was changed for its resident one.
      have hg : g ≠ h := by
        rintro rfl
        exact hne (hw.session.named other g hres).symm
      dsimp only
      rw [he.others g hg]

end Edited

/-- What a record has of its own under a name. -/
def ownProperty (name : String) (r : Record) : Option Value := r.properties.get? name

def ownMethod (name : String) (r : Record) : Option (ObjectId × MethodDef) :=
  (r.methods.get? name).map (r.id, ·)

/-- Lookups of one name that meet a copy first come to what it has under the name, or else to what
is found above it.  All others come to what they came to. -/
structure Shadows {α : Type} (look : Handle → String → Action (Option α))
    (own : String → Record → Option α) (w w' : World) (h : Handle) (n : String) (mine : Option α) :
    Prop where
  meets : ∀ (y : Subject) after cut, w.Meets h y (own n) after cut →
    ((y.asked (look · n)).run w').1 = match mine with
      | some a => .ok (some a)
      | none => (along (own n) after cut).mapError RuntimeError.persistence
  misses : ∀ (y : Subject), (∀ after cut, ¬w.Meets h y (own n) after cut) →
    ((y.asked (look · n)).run w').1 = ((y.asked (look · n)).run w).1
  elsewhere : ∀ (y : Subject) m, m ≠ n →
    ((y.asked (look · m)).run w').1 = ((y.asked (look · m)).run w).1

/-- Every lookup comes to what it came to. -/
def Unshadowed {α : Type} (look : Handle → String → Action (Option α)) (w w' : World) : Prop :=
  ∀ (y : Subject) m, ((y.asked (look · m)).run w').1 = ((y.asked (look · m)).run w).1

/-- A property of the copy has come to be this, or is gone, and what is looked up comes to that. -/
structure PropertyChanges (w w' : World) (h : Handle) (n : String) (v : Option Value)
    (touched : Prop) : Prop where
  edited : Edited w w' h (.property n) (.property v) touched
  properties : Shadows property? ownProperty w w' h n v
  methods : Unshadowed findMethod w w'

/-- A method of the copy has come to be this, or is gone, and what is looked up comes to that. -/
structure MethodChanges (w w' : World) (h : Handle) (n : String) (m : Option MethodDef)
    (touched : Prop) : Prop where
  edited : Edited w w' h (.method n) (.method m) touched
  methods : Shadows findMethod ownMethod w w' h n (m.map ((w.session.copyOf h).record.id, ·))
  properties : Unshadowed property? w w'

namespace Swapped

variable {n : String}

theorem shadows {α : Type} {own : String → Record → Option α} {mine : Option α}
    (hs : Swapped w w' h) (hmine : own n (w'.session.copyOf h).record = mine)
    (hothers : ∀ m, m ≠ n →
      own m (w'.session.copyOf h).record = own m (w.session.copyOf h).record) :
    Shadows (fun g m => resolve g (own m)) own w w' h n mine where
  meets := by
    intro y after cut hmeets
    rw [hs.asked_meets hmeets, along_cons, hmine]
    cases mine <;> rfl
  misses := fun _ hmisses => hs.asked_misses hmisses
  elsewhere := fun _ m hm => hs.asked_same (hothers m hm)

theorem property_changes (hs : Swapped w w' h) {touched : Prop} {v : Option Value}
    (he : Edited w w' h (.property n) (.property v) touched) :
    PropertyChanges w w' h n v touched := by
  refine ⟨he, hs.shadows (Content.property.inj he.there) fun m hm => ?_, fun y m => ?_⟩
  · exact Content.property.inj (he.elsewhere (.property m) fun heq => hm (Path.property.inj heq))
  · refine hs.asked_same ?_
    rw [he.id, Content.method.inj (he.elsewhere (.method m) nofun)]

theorem method_changes (hs : Swapped w w' h) {touched : Prop} {m : Option MethodDef}
    (he : Edited w w' h (.method n) (.method m) touched) : MethodChanges w w' h n m touched := by
  have hown {name : String} {found : Option MethodDef}
      (hfound : (w'.session.copyOf h).record.methods.get? name = found) :
      ownMethod name (w'.session.copyOf h).record =
        found.map ((w.session.copyOf h).record.id, ·) := by
    unfold ownMethod
    rw [hfound, he.id]
  refine ⟨he, hs.shadows (hown (Content.method.inj he.there)) fun m' hm => hown ?_, fun y m => ?_⟩
  · exact Content.method.inj (he.elsewhere (.method m') fun heq => hm (Path.method.inj heq))
  · exact hs.asked_same (Content.property.inj (he.elsewhere (.property m) nofun))

end Swapped

/-! ## The four changes -/

/-- The copy after a property of it has been changed. -/
def withProperties (f : OrderedDict String Value → OrderedDict String Value) (c : Copy) : Copy :=
  { c with record := { c.record with properties := f c.record.properties } }

/-- The copy after a property of it has been marked as changed. -/
def markProperty (name : String) (c : Copy) : Copy :=
  { c with dirty := { c.dirty with properties := c.dirty.properties.add name } }

section

variable (hgiven : w.session.Given h) {n : String} {touched : Prop} (htouched : touched)
include hgiven htouched

theorem properties_edited {f : OrderedDict String Value → OrderedDict String Value}
    {v : Option Value}
    (hthere : (f (w.session.copyOf h).record.properties).get? n = v)
    (hothers : ∀ m, m ≠ n → (f (w.session.copyOf h).record.properties).get? m =
      (w.session.copyOf h).record.properties.get? m) :
    Edited w { w with session :=
      (w.session.change h (withProperties f)).change h (markProperty n) } h
      (.property n) (.property v) touched := by
  rw [Session.change_change]
  refine .of_change hgiven rfl (congrArg Content.property hthere) (fun q hq => ?_)
    (fun q => Dirty.marks_addProperty _ n q) htouched
  cases q with
  | header => rfl
  | property m => exact congrArg Content.property (hothers m fun heq => hq (heq ▸ rfl))
  | method m => rfl

theorem methods_edited {f : OrderedDict String MethodDef → OrderedDict String MethodDef}
    {m : Option MethodDef}
    (hthere : (f (w.session.copyOf h).record.methods).get? n = m)
    (hothers : ∀ m, m ≠ n → (f (w.session.copyOf h).record.methods).get? m =
      (w.session.copyOf h).record.methods.get? m) (definer : ObjectId) :
    Edited w { w with session :=
      ((w.session.change h (withMethods f)).change h (markMethod n)).forgetting definer n } h
      (.method n) (.method m) touched := by
  rw [Session.change_change]
  have hchanged : Edited w
      { w with session := w.session.change h fun c => markMethod n (withMethods f c) } h
      (.method n) (.method m) touched := by
    refine .of_change hgiven rfl (congrArg Content.method hthere) (fun q hq => ?_)
      (fun q => Dirty.marks_addMethod _ n q) htouched
    cases q with
    | header => rfl
    | property m => rfl
    | method m => exact congrArg Content.method (hothers m fun heq => hq (heq ▸ rfl))
  exact hchanged.forgetting definer n

end

theorem removeProperty_edits (hgiven : w.session.Given h) (n : String) :
    Edited w (removeProperty h n w).2 h (.property n) (.property none)
      ((w.session.copyOf h).record.properties.has n = true) := by
  have hrun : removeProperty h n w = (if (w.session.copyOf h).record.properties.has n then (do
      onRecord h fun r => { r with properties := r.properties.remove n }
      onDirty h fun d => { d with properties := d.properties.add n }
      return true : StateM World Bool) else pure false) w := rfl
  rw [hrun]
  by_cases hhas : (w.session.copyOf h).record.properties.has n = true
  · rw [if_pos hhas]
    exact properties_edited hgiven hhas (f := fun properties => properties.remove n)
      (OrderedDict.get?_remove_self _ n) fun m hm => OrderedDict.get?_remove_ne _ hm
  · rw [if_neg hhas]
    exact .untouched w h (congrArg Content.property (OrderedDict.get?_eq_none_iff.mpr hhas)) hhas

theorem removeMethod_edits (hgiven : w.session.Given h) (n : String) :
    Edited w (removeMethod h n w).2 h (.method n) (.method none)
      ((w.session.copyOf h).record.methods.has n = true) := by
  have hrun : removeMethod h n w = (if (w.session.copyOf h).record.methods.has n then (do
      onRecord h fun r => { r with methods := r.methods.remove n }
      onDirty h fun d => { d with methods := d.methods.add n }
      forgetCompiled (w.session.copyOf h).record.id n
      return true : StateM World Bool) else pure false) w := rfl
  rw [hrun]
  by_cases hhas : (w.session.copyOf h).record.methods.has n = true
  · rw [if_pos hhas]
    exact methods_edited hgiven hhas (f := fun methods => methods.remove n)
      (OrderedDict.get?_remove_self _ n) (fun m hm => OrderedDict.get?_remove_ne _ hm) _
  · rw [if_neg hhas]
    exact .untouched w h (congrArg Content.method (OrderedDict.get?_eq_none_iff.mpr hhas)) hhas

/-- What is set or removed through the resident copy of an object changes that copy alone, at that
one path.  Of all lookups, on whatever copy or object, those of the same name come to something
else that meet the copy before any other owner of the name: to what has been set, or, after a
removal, to what is found above the copy. -/
theorem Reachable.shadowing {w : World} (hw : Reachable w) {x : ObjectId} {h : Handle}
    (hat : w.At x h) (n : String) :
    (∀ v, PropertyChanges w (setProperty h n v w).2 h n (some v) True) ∧
    PropertyChanges w (removeProperty h n w).2 h n none
      ((w.session.copyOf h).record.properties.has n = true) ∧
    (∀ m, MethodChanges w (setMethod h n m w).2 h n (some m) True) ∧
    MethodChanges w (removeMethod h n w).2 h n none
      ((w.session.copyOf h).record.methods.has n = true) := by
  have hc := hw.coherent
  have hgiven := hc.session.given x h hat
  refine ⟨fun v => ?_, ?_, fun m => ?_, ?_⟩
  · have hedited : Edited w (setProperty h n v w).2 h (.property n) (.property (some v)) True :=
      properties_edited hgiven trivial (f := fun properties => properties.put n v)
        (OrderedDict.get?_put_self _ _ _) fun m hm => OrderedDict.get?_put_ne _ _ hm
    exact (hedited.swapped nofun hc (setProperty_keeps h n v w hc) hat).property_changes hedited
  · have hedited := removeProperty_edits hgiven n
    exact (hedited.swapped nofun hc (removeProperty_keeps h n w hc) hat).property_changes hedited
  · have hedited : Edited w (setMethod h n m w).2 h (.method n) (.method (some m)) True :=
      methods_edited hgiven trivial (f := fun methods => methods.put n m)
        (OrderedDict.get?_put_self _ _ _) (fun m hm => OrderedDict.get?_put_ne _ _ hm) _
    exact (hedited.swapped nofun hc (setMethod_keeps h n m w hc) hat).method_changes hedited
  · have hedited := removeMethod_edits hgiven n
    exact (hedited.swapped nofun hc (removeMethod_keeps h n w hc) hat).method_changes hedited

/-- Of two objects that have each other for a parent the first is given a property and loses its
method.  The second, which owns neither, then has the one and no longer the other. -/
theorem Reachable.shadowing_paired :
    paired.At ⟨0⟩ ⟨0⟩ ∧
      ((property? ⟨1⟩ "colour").run (setProperty ⟨0⟩ "colour" (.str "red") paired).2).1 =
        .ok (some (.str "red")) ∧
      ((findMethod ⟨1⟩ "greet").run (removeMethod ⟨0⟩ "greet" paired).2).1 = .ok none := by
  have hat : paired.At ⟨0⟩ ⟨0⟩ := rfl
  have hmeets {α : Type} {probe : Record → Option α}
      (hprobe : probe (paired.session.copyOf ⟨1⟩).record = none) :
      paired.Meets ⟨0⟩ (.handle ⟨1⟩) probe [] none := by
    refine ⟨fun g hg hid => ?_, (paired.session.copyOf ⟨1⟩).record,
      [(paired.session.copyOf ⟨1⟩).record], rfl, .next rfl (.top rfl),
      fun b hb => List.mem_singleton.mp hb ▸ hprobe⟩
    cases hg
    exact absurd hid (by decide +kernel)
  obtain ⟨hset, -⟩ := paired_reachable.shadowing hat "colour"
  obtain ⟨-, -, -, hremoved⟩ := paired_reachable.shadowing hat "greet"
  exact ⟨hat, (hset (.str "red")).properties.meets _ _ _ (hmeets rfl),
    hremoved.methods.meets _ _ _ (hmeets rfl)⟩

end World

end Lineage
