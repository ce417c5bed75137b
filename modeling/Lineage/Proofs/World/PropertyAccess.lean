/-
  Lineage.Proofs.World.PropertyAccess

  How scripts read and write the properties of objects.

  Reading a property only brings objects into memory.  If it gives a value, the object is
  resident and live from then on (`getProp_attempts`).  Writing a property of such an
  object cannot fail, unless the name is one that the view answers itself; it gives the
  object a property of its own, and every other object is seen as before
  (`putProp_owned`).
-/
import Lineage.Proofs.World.Lookups
import Lineage.Proofs.World.Shadowing
import Lineage.Proofs.World.ViewChanges

namespace Lineage

open World

namespace World

/-- A handle names the resident copy of an object that is not recycled. -/
structure Live (w : World) (id : ObjectId) (h : Handle) : Prop where
  resident : w.At id h
  unrecycled : (w.session.copyOf h).record.recycled = false

variable {w w₀ w' : World} {id : ObjectId} {h : Handle}

theorem Live.browsed (hl : w.Live id h) (hw : w.Coherent) (hb : Browsed w w') : w'.Live id h :=
  ⟨hb.stays id h hl.resident, by rw [hb.copies h (hw.session.given id h hl.resident)]; exact hl.unrecycled⟩

theorem Live.load (hl : w.Live id h) : (load id).run w = (.ok (some h), w) := by
  have hpick : (pick false h).run w = (.ok (some h), w) := by
    show (if (w.session.copyOf h).record.recycled && !false then pure none
      else pure (some h) : Action _).run w = _
    rw [hl.unrecycled]
    rfl
  exact (loadWith_resident false hl.resident).trans hpick

/-- An object has come to have a property of its own, and is else as it was but for the time of its
last change.  Every other object is seen as before. -/
structure Owns (w w' : World) (id : ObjectId) (name : String) (v : Value) : Prop where
  coherent : w'.Coherent
  own : ∃ c c', w.seen id = .ok (some c) ∧ w'.seen id = .ok (some c') ∧ c'.record =
    { c.record with properties := c.record.properties.put name v, modified := w.clock }
  others : ∀ other, other ≠ id → w'.seen other = w.seen other

/-! ## Reading -/

theorem Browsed.loadWith (recycledToo : Bool) (id : ObjectId) :
    Attempts (Browsed w₀) (World.loadWith recycledToo id) (fun found w => Browsed w₀ w ∧
      ∀ h, found = some h → w.At id h ∧
        ((w.session.copyOf h).record.recycled && !recycledToo) = false) (Browsed w₀) := by
  intro w hb
  obtain ⟨result, w', hrun, hbrowsed, hgives⟩ := loadWith_browses hb.coherent recycledToo id
  rw [hrun]
  have hb' := hb.trans hbrowsed
  generalize hmet : w.met id = met at hgives
  cases hgives with
  | failed e => exact hb'
  | missing => exact ⟨hb', nofun⟩
  | recycled hskip => exact ⟨hb', nofun⟩
  | found hskip hat =>
    refine ⟨hb', ?_⟩
    rintro _ ⟨⟩
    rw [hbrowsed.copy_met hat hmet]
    exact ⟨hat, hskip⟩

theorem Browsed.resolve {α : Type} (h : Handle) (probe : Record → Option α) :
    Guards (Browsed w₀) (World.resolve h probe) := by
  intro w hb
  obtain ⟨w', hrun, hbrowsed⟩ := resolve_browses hb.coherent h probe
  rw [hrun]
  cases ascend w.met probe (reach w) [] (w.session.copyOf h).record with
  | error e => exact hb.trans hbrowsed
  | ok found => exact hb.trans hbrowsed

/-- What the view answers itself is an object or a truth value. -/
def Plain (v : Value) : Prop := (∃ id, v = .obj id) ∨ ∃ b, v = .bool b

theorem Browsed.viewValue (h : Handle) (key : String) :
    Attempts (Browsed w₀) (World.viewValue h key) (fun found w => Browsed w₀ w ∧
      ∀ v, found = some v → reservedKeys.contains key = true → Plain v) (Browsed w₀) := by
  refine .bind (.lift (recordOf_keeps h)) fun record => ?_
  split
  · exact .pure _ fun w hb => ⟨hb, fun v hv _ => Option.some.inj hv ▸ .inl ⟨_, rfl⟩⟩
  · exact .pure _ fun w hb => ⟨hb, fun v hv _ => Option.some.inj hv ▸ .inl ⟨_, rfl⟩⟩
  · exact .pure _ fun w hb => ⟨hb, fun v hv _ => Option.some.inj hv ▸ .inr ⟨_, rfl⟩⟩
  · rename_i hid hparent hrecycled
    refine (Browsed.resolve h _).mono fun found w hb => ⟨hb, fun v _ hreserved => ?_⟩
    rcases List.mem_cons.mp (List.contains_iff_mem.mp hreserved) with rfl | hmem
    · exact (hid rfl).elim
    rcases List.mem_cons.mp hmem with rfl | hmem
    · exact (hparent rfl).elim
    · exact (hrecycled (List.mem_singleton.mp hmem)).elim

end World

namespace Machine

variable {w w₀ : World} {id : ObjectId} {h : Handle} {name : String}

theorem liveObject_attempts (id : ObjectId) : Attempts (Browsed w₀) (liveObject id)
    (fun h w => Browsed w₀ w ∧ w.Live id h) (Browsed w₀) := by
  refine .bind (Browsed.loadWith false id).forScript fun found => ?_
  cases found with
  | none => exact .throw _ fun _ hb => hb.1
  | some h =>
    refine .pure _ fun w hb => ⟨hb.1, ?_⟩
    obtain ⟨hat, hskip⟩ := hb.2 h rfl
    exact ⟨hat, by simpa using hskip⟩

theorem objectOperand_run (id : ObjectId) (w : World) : (objectOperand (.obj id)).run w = (.ok id, w) :=
  rfl

theorem textOperand_run (what name : String) (w : World) :
    (textOperand what (.str name)).run w = (.ok name, w) := rfl

/-- Reading a property changes nothing that is met.  If there is a value, the object stays live. -/
theorem getProp_attempts (object property : Value) : Attempts (Browsed w₀) (getProp object property)
    (fun v w => Browsed w₀ w ∧ ∃ id name h, object = .obj id ∧ property = .str name ∧ w.Live id h ∧
      (reservedKeys.contains name = true → Plain v)) (Browsed w₀) := by
  cases object with
  | obj id =>
    cases property with
    | str name =>
      have hview (h : Handle) : Attempts (fun w => Browsed w₀ w ∧ w.Live id h)
          (viewValue h name).forScript (fun found w => (Browsed w₀ w ∧ w.Live id h) ∧
            ∀ v, found = some v → reservedKeys.contains name = true → Plain v)
          (Browsed w₀) := by
        refine .at_each fun w₁ hw₁ => ?_
        have hview : Attempts (Browsed w₁) (viewValue h name) _ _ := Browsed.viewValue h name
        have hread := hview.forScript.weaken fun w (hw : w = w₁) =>
          hw.symm ▸ Browsed.refl hw₁.1.coherent
        refine (hread.mono fun found w₂ hw₂ => ?_).fails fun w₂ hb' => hw₁.1.trans hb'
        exact ⟨⟨hw₁.1.trans hw₂.1, hw₁.2.browsed hw₁.1.coherent hw₂.1⟩, hw₂.2⟩
      refine .bind (Q := fun a w => Browsed w₀ w ∧ a = id) (.pure id fun _ hb => ⟨hb, rfl⟩) fun a => ?_
      refine .bind (Q := fun b w => Browsed w₀ w ∧ a = id ∧ b = name)
        (.pure name fun _ hb => ⟨hb.1, hb.2, rfl⟩) fun b => .at_each fun w₁ hw₁ => ?_
      obtain ⟨hb, rfl, rfl⟩ := hw₁
      refine .bind ((liveObject_attempts a).weaken fun _ hw => hw ▸ hb) fun h =>
        .bind (hview h) fun found => ?_
      cases found with
      | none => exact .throw _ fun _ hw => hw.1.1
      | some v => exact .pure _ fun _ hw => ⟨hw.1.1, a, b, h, rfl, rfl, hw.1.2, hw.2 v rfl⟩
    | _ =>
      show Attempts _ (throw _ : ScriptAction Value) _ _
      exact .throw _ fun _ hb => hb
  | _ =>
    show Attempts _ (throw _ : ScriptAction Value) _ _
    exact .throw _ fun _ hb => hb

theorem forScript_run {α : Type} {x : Action α} {w w' : World} {a : α} (h : x.run w = (.ok a, w')) :
    x.forScript.run w = (.ok a, w') := by
  rw [Action.forScript, run_lift_bind, h]
  rfl

theorem liveObject_run (hl : w.Live id h) : (liveObject id).run w = (.ok h, w) := by
  rw [liveObject, run_bind, forScript_run hl.load]
  rfl

/-- An object's own property is read without anything being loaded. -/
theorem getProp_own (hl : w.Live id h) (hfree : reservedKeys.contains name = false) {v : Value}
    (hown : (w.session.copyOf h).record.properties.get? name = some v) :
    (getProp (.obj id) (.str name)).run w = (.ok v, w) := by
  have hview : (viewValue h name).run w = (.ok (some v), w) := by
    have hresolve : (property? h name).run w = (.ok (some v), w) := by
      unfold property? resolve
      rw [run_get_bind, show reach w = w.store.size + w.session.resident.length + 1 + 1 from rfl]
      simp only [climb]
      rw [run_lift_bind, show recordOf h w = ((w.session.copyOf h).record, w) from rfl]
      simp only [List.contains_nil, Bool.false_eq_true, if_false, hown]
      rfl
    unfold viewValue
    rw [run_lift_bind]
    split
    · exact absurd hfree (by decide)
    · exact absurd hfree (by decide)
    · exact absurd hfree (by decide)
    · exact hresolve
  unfold getProp
  rw [run_bind, objectOperand_run]
  dsimp only
  rw [run_bind, textOperand_run]
  dsimp only
  rw [run_bind, liveObject_run hl]
  dsimp only
  rw [run_bind, forScript_run hview]
  rfl

/-- Writing a property of a live object gives it that property, and reading it gives the value from
then on, also when more objects have been brought into memory. -/
theorem putProp_owns (hw : w.Coherent) (hl : w.Live id h) (hfree : reservedKeys.contains name = false)
    (v : Value) : ∃ w', (putProp (.obj id) (.str name) v).run w = (.ok v, w') ∧ Owns w w' id name v ∧
      ∀ w₁, Browsed w' w₁ → (getProp (.obj id) (.str name)).run w₁ = (.ok v, w₁) := by
  let f : Copy → Copy := fun c => markProperty name (withProperties (fun d => d.put name v) c)
  have hturns := amended_turns (f := f) hl.resident hw (fun _ => rfl) fun _ => rfl
  have hat₁ : (w.changed h f).At id h := hl.resident
  obtain ⟨w', hsave, hsaved⟩ := saveLater_run hat₁ hturns.coherent
  have hcopy := copyOf_changed hl.resident hw f
  have hdirty : ¬((w.changed h f).session.copyOf h).dirty.isClean = true := by
    rw [hcopy]
    exact fun hclean => Dirty.isClean_iff.mp hclean (.property name)
      ((Dirty.marks_addProperty _ _ _).mpr (.inl rfl))
  rw [View.savedLater, if_neg hdirty, hcopy, hturns.view] at hsaved
  -- Whether the write is still taken makes no difference to what is seen.
  have hseen : w'.seen = fun other => if other = id then
      .ok (some ((f (w.session.copyOf h)).written w.clock)) else w.seen other := by
    have hview : w'.view.seen = _ := congrArg View.seen hsaved.view
    refine hview.trans ?_
    split
    · rw [View.put_put]; rfl
    · rw [View.put_put]; rfl
  have hat : w'.At id h := hsaved.stays id h hat₁
  have hnow : w'.session.copyOf h = (f (w.session.copyOf h)).written w.clock :=
    hat.copy_eq ((congrFun hseen id).trans (if_pos rfl))
  have hl' : w'.Live id h := ⟨hat, by rw [hnow]; exact hl.unrecycled⟩
  refine ⟨w', ?_, ⟨hsaved.coherent, ⟨_, _, hl.resident.seen, hat.seen, by rw [hnow]; rfl⟩, ?_⟩,
    fun w₁ hb => getProp_own (hl'.browsed hsaved.coherent hb) hfree ?_⟩
  · have hset : (viewSet h name v).run w = (.ok (), w') := by
      have hchange : setProperty h name v w = ((), w.changed h f) := by
        show ((), { w with session := (w.session.change h (withProperties fun d =>
          d.put name v)).change h (markProperty name) }) = _
        rw [Session.change_change]
        rfl
      have hwrite : (do setProperty h name v; saveLater h : Action Unit).run w = (.ok (), w') := by
        rw [run_lift_bind, hchange]
        exact congrArg (fun r => (Except.ok r.1, r.2)) hsave
      unfold viewSet
      rw [hfree]
      exact hwrite
    unfold putProp
    rw [run_bind, objectOperand_run]
    dsimp only
    rw [run_bind, textOperand_run]
    dsimp only
    rw [run_bind, liveObject_run hl]
    dsimp only
    rw [run_bind, forScript_run hset]
    rfl
  · exact fun other hother => (congrFun hseen other).trans (if_neg hother)
  · rw [hb.copies h (hsaved.coherent.session.given id h hat), hnow]
    exact Dict.get?_put_self _ _ _

end Machine

end Lineage
