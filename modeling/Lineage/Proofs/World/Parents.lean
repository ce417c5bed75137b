/-
  Lineage.Proofs.World.Parents

  Giving an object another parent, as far as it can be told by ids.

  Whether a parent is refused depends on what is seen of the objects above it
  (`World.verdict`, `allowParent_view`).  If it is not, the object is seen with that
  parent, and is saved (`reparent_view`).
-/
import Lineage.Proofs.World.Reading
import Lineage.Proofs.World.ViewChanges

namespace Lineage

/-- A copy with another parent, which is to be written. -/
def Copy.under (c : Copy) (parent : ObjectId) : Copy :=
  { record := { c.record with parent }, dirty := { c.dirty with header := true } }

/-- What comes of giving the copy of an object a parent and saving it. -/
def View.placed (v : View) (id : ObjectId) (c : Copy) (parent : ObjectId) :
    Except StoreError Bool × View :=
  (v.put id (c.under parent)).saved id (c.under parent)

namespace World

variable {w : World} {id : ObjectId} {h : Handle}

/-- Whether a record is that of an object. -/
def isOf (id : ObjectId) (record : Record) : Option Unit :=
  if record.id = id then some () else none

/-- Whether an object may get a parent. -/
def verdict (w : World) (id parent : ObjectId) : Except RuntimeError Unit :=
  if parent = id then .error (.recursiveParent id parent)
  else if parent = .nothing then .ok ()
  else match w.seen parent with
    | .error e => .error (.persistence e)
    | .ok none => .ok ()
    | .ok (some c) =>
      match w.ascent (isOf id) c.record with
      | .error e => .error (.persistence e)
      | .ok (some _) => .error (.recursiveParent id parent)
      | .ok none => .ok ()

theorem seen_ne_none (hw : w.Coherent) {c : Copy} (hc : w.seen id = .ok (some c)) :
    w.seen c.record.id ≠ .ok none := by
  rw [seen_id hw hc, hc]
  exact nofun

/-- The verdict can be told by ids. -/
theorem verdict_congr {w' : World} (hw : w.Coherent) (hw' : w'.Coherent) (hseen : w'.seen = w.seen)
    (id parent : ObjectId) : w'.verdict id parent = w.verdict id parent := by
  rw [verdict, verdict, hseen]
  cases hparent : w.seen parent with
  | error e => rfl
  | ok found =>
    cases found with
    | none => rfl
    | some c =>
      dsimp only
      rw [ascent_congr hw hw' hseen _ (seen_ne_none hw hparent)]

theorem allowParent_view (hw : w.Coherent) (hc : w.drained.isConnected = true) (id parent : ObjectId) :
    ∃ w', (allowParent id parent).run w = (w.verdict id parent, w') ∧ Loaded w w' := by
  unfold allowParent verdict
  by_cases hself : parent = id
  · rw [if_pos hself, if_pos hself]
    exact ⟨w, rfl, .refl hw⟩
  · rw [if_neg hself, if_neg hself]
    by_cases hnothing : parent = .nothing
    · rw [if_neg (not_not_intro hnothing), if_pos hnothing]
      exact ⟨w, rfl, .refl hw⟩
    · rw [if_pos hnothing, if_neg hnothing, run_bind]
      obtain ⟨result, w₁, hload, hloaded, hgives⟩ := loadWith_run hw hc true parent
      rw [hload]
      generalize hseen : w.seen parent = seen at hgives
      cases hgives with
      | failed e => exact ⟨w₁, rfl, hloaded⟩
      | missing => exact ⟨w₁, rfl, hloaded⟩
      | recycled hskip => simp at hskip
      | @found c _ g hat =>
        obtain ⟨w₂, hresolve, hresolved⟩ := resolve_run hloaded.coherent (hloaded.connected.trans hc) g
          (isOf id)
        have hcopy : w₁.session.copyOf g = c :=
          hat.copy_eq ((congrFun hloaded.seen _).trans hseen)
        rw [hcopy, ascent_congr hw hloaded.coherent hloaded.seen _ (seen_ne_none hw hseen)] at hresolve
        have hreaches : (reaches g id).run w₁ =
            (((w.ascent (isOf id) c.record).mapError RuntimeError.persistence).map Option.isSome, w₂) := by
          show ((resolve g (isOf id) >>= fun found => pure found.isSome : Action Bool)).run w₁ = _
          rw [run_bind, hresolve]
          cases w.ascent (isOf id) c.record <;> rfl
        refine ⟨w₂, ?_, hloaded.trans hresolved⟩
        dsimp only
        rw [run_bind, hreaches]
        rcases w.ascent (isOf id) c.record with e | _ | _ <;> rfl

/-! ## What is ruled out -/

/-- Parents lead from these objects to no others, nor to one that cannot be read. -/
def Closed (seen : ObjectId → Except StoreError (Option Copy)) (ids : List ObjectId) : Prop :=
  ∀ other ∈ ids, seen other = .ok none ∨ ∃ c, seen other = .ok (some c) ∧ c.record.parent ∈ ids

namespace Closed

variable {seen : ObjectId → Except StoreError (Option Copy)} {ids : List ObjectId}

theorem single (hnone : seen id = .ok none) : Closed seen [id] := fun _ hother =>
  .inl (List.mem_singleton.mp hother ▸ hnone)

/-- What holds the parent of an object stays closed with the object added. -/
theorem cons (h : Closed seen ids) {c : Copy} (hc : seen id = .ok (some c))
    (hparent : c.record.parent ∈ ids) : Closed seen (id :: ids) := by
  intro other hother
  rcases List.mem_cons.mp hother with rfl | hother
  · exact .inr ⟨c, hc, List.mem_cons_of_mem _ hparent⟩
  · rcases h other hother with hnone | ⟨c', hc', hparent'⟩
    · exact .inl hnone
    · exact .inr ⟨c', hc', List.mem_cons_of_mem _ hparent'⟩

end Closed

/-- A chain has come to a copy, not past `id`; parents lead from those that it has come past to each
other or to the copy. -/
structure Avoiding (seen : ObjectId → Except StoreError (Option Copy)) (id : ObjectId)
    (visited : List ObjectId) (c : Copy) : Prop extends Climbed seen visited c.record where
  avoids : id ∉ visited
  linked : ∀ other ∈ visited, ∃ c', seen other = .ok (some c') ∧
    c'.record.parent ∈ c.record.id :: visited
  found : seen c.record.id = .ok (some c)

namespace Avoiding

variable {seen : ObjectId → Except StoreError (Option Copy)} {visited : List ObjectId} {c c' : Copy}

theorem start (hc : seen c.record.id = .ok (some c)) : Avoiding seen id [] c where
  toClimbed := .start (hc ▸ fun h => Option.some_ne_none _ (Except.ok.inj h))
  avoids := List.not_mem_nil
  linked := fun _ hother => absurd hother List.not_mem_nil
  found := hc

theorem next (h : Avoiding seen id visited c) (hnew : ¬visited.contains c.record.id = true)
    (hne : c.record.id ≠ id) (hparent : seen c.record.parent = .ok (some c'))
    (hc' : c'.record.id = c.record.parent) : Avoiding seen id (c.record.id :: visited) c' where
  toClimbed := h.toClimbed.next hnew
    (hc' ▸ hparent ▸ fun h => Option.some_ne_none _ (Except.ok.inj h))
  avoids := List.not_mem_cons_of_ne_of_not_mem hne.symm h.avoids
  linked := by
    intro other hother
    rcases List.mem_cons.mp hother with rfl | hother
    · exact ⟨c, h.found, hc' ▸ List.mem_cons_self⟩
    · obtain ⟨c'', hc'', hlinked⟩ := h.linked other hother
      exact ⟨c'', hc'', List.mem_cons_of_mem _ hlinked⟩
  found := hc' ▸ hparent

/-- What the chain has come past is closed when it comes back to it. -/
theorem closed (h : Avoiding seen id visited c) (hagain : c.record.id ∈ visited) :
    Closed seen visited := by
  intro other hother
  obtain ⟨c', hc', hlinked⟩ := h.linked other hother
  refine .inr ⟨c', hc', ?_⟩
  rcases List.mem_cons.mp hlinked with heq | hlinked
  · rwa [heq]
  · exact hlinked

end Avoiding

/-- Where an object is not found on a chain, the chain ends without it or runs into a circle without
it.  Induction on the steps; they are enough, because no more can be visited than can be seen. -/
theorem ascend_closed {seen : ObjectId → Except StoreError (Option Copy)} {bound fuel : Nat}
    (hbound : Bounded seen bound) (hnamed : ∀ id c, seen id = .ok (some c) → c.record.id = id)
    (hnothing : seen .nothing = .ok none) {id : ObjectId} (hid : seen id ≠ .ok none)
    {visited : List ObjectId} {c : Copy} (hat : Avoiding seen id visited c)
    (hfuel : bound < fuel + visited.length)
    (hresult : ascend seen (isOf id) fuel visited c.record = .ok none) :
    ∃ ids, c.record.id ∈ ids ∧ id ∉ ids ∧ Closed seen ids := by
  induction fuel generalizing visited c with
  | zero =>
    have hlength := hbound visited hat.nodup hat.past
    omega
  | succ fuel ih =>
    simp only [ascend] at hresult
    by_cases hagain : visited.contains c.record.id = true
    · have hmem := List.contains_iff_mem.mp hagain
      exact ⟨visited, hmem, hat.avoids, hat.closed hmem⟩
    · rw [if_neg hagain] at hresult
      have hne : c.record.id ≠ id := by
        intro heq
        rw [isOf, if_pos heq] at hresult
        cases hresult
      rw [isOf, if_neg hne] at hresult
      dsimp only at hresult
      -- It is enough to find what is closed above the object.
      suffices habove : ∃ ids, c.record.parent ∈ ids ∧ id ∉ ids ∧ Closed seen ids by
        obtain ⟨ids, hmem, hids, hclosed⟩ := habove
        exact ⟨c.record.id :: ids, List.mem_cons_self,
          List.not_mem_cons_of_ne_of_not_mem hne.symm hids, hclosed.cons hat.found hmem⟩
      have hends (hparent : seen c.record.parent = .ok none) :
          ∃ ids, c.record.parent ∈ ids ∧ id ∉ ids ∧ Closed seen ids :=
        ⟨[c.record.parent], List.mem_singleton_self _,
          fun hmem => hid (List.mem_singleton.mp hmem ▸ hparent), .single hparent⟩
      by_cases hlast : c.record.parent = .nothing
      · exact hends (hlast ▸ hnothing)
      · rw [if_neg hlast] at hresult
        cases hparent : seen c.record.parent with
        | error e => rw [hparent] at hresult; cases hresult
        | ok found =>
          cases found with
          | none => exact hends hparent
          | some c' =>
            rw [hparent] at hresult
            have hc' : c'.record.id = c.record.parent := hnamed _ c' hparent
            rw [← hc']
            exact ih (hat.next hagain hne hparent hc') (by rw [List.length_cons]; omega) hresult

/-- An object that is seen may get a parent only if the parent is not below it. -/
theorem verdict_closed (hw : w.Coherent) (hnothing : w.seen .nothing = .ok none)
    (hid : w.seen id ≠ .ok none) {parent : ObjectId} (hok : w.verdict id parent = .ok ())
    (hparent : parent ≠ .nothing) :
    ∃ ids, parent ∈ ids ∧ id ∉ ids ∧ Closed w.seen ids := by
  unfold verdict at hok
  by_cases hself : parent = id
  · rw [if_pos hself] at hok
    cases hok
  · rw [if_neg hself, if_neg hparent] at hok
    cases hseen : w.seen parent with
    | error e => rw [hseen] at hok; cases hok
    | ok found =>
      cases found with
      | none =>
        exact ⟨[parent], List.mem_singleton_self _, fun hmem => hself (List.mem_singleton.mp hmem).symm,
          fun other hother => .inl (List.mem_singleton.mp hother ▸ hseen)⟩
      | some c =>
        have hc : c.record.id = parent := seen_id hw hseen
        rw [hseen] at hok
        dsimp only at hok
        rcases hascent : w.ascent (isOf id) c.record with e | _ | _
        · rw [hascent] at hok
          cases hok
        · obtain ⟨ids, hmem, hids⟩ := ascend_closed (seen_bounded hw) (fun _ _ => seen_id hw) hnothing
            hid (.start (hc ▸ hseen))
            (by simp only [reach, List.length_nil]; omega) hascent
          exact ⟨ids, hc ▸ hmem, hids⟩
        · rw [hascent] at hok
          cases hok

/-! ## A new parent -/

theorem reparent_view (hat : w.At id h) (hw : w.Coherent) (parent : ObjectId) : ∃ w',
    (reparent h parent).run w =
      (((w.view.placed id (w.session.copyOf h) parent).1.mapError RuntimeError.persistence).map
        fun _ => (), w') ∧ Turns w (w.view.placed id (w.session.copyOf h) parent).2 w' := by
  have hplaced := amended_turns hat hw (f := fun c => { c with record := { c.record with parent } })
    (fun _ => rfl) fun _ => rfl
  have hat₁ : (w.changed h fun c => { c with record := { c.record with parent } }).At id h := hat
  have hmarked := amended_turns hat₁ hplaced.coherent
    (f := fun c => { c with dirty := { c.dirty with header := true } }) (fun _ => rfl) fun _ => rfl
  have hcopy := copyOf_changed hat₁ hplaced.coherent
    fun c => { c with dirty := { c.dirty with header := true } }
  rw [copyOf_changed hat hw] at hmarked hcopy
  rw [hplaced.view, View.put_put] at hmarked
  obtain ⟨w', hsave, hsaved⟩ := save_run (hmarked.stays id h hat₁) hmarked.coherent
  rw [hmarked.view, hcopy] at hsave hsaved
  exact ⟨w', reparent_run h parent w hsave, (hplaced.trans hmarked).trans hsaved⟩

theorem setParent_refused (hat : w.At id h) (hw : w.Coherent) (hc : w.drained.isConnected = true)
    {parent : ObjectId} {e : RuntimeError} (he : w.verdict id parent = .error e) :
    ∃ w', (setParent h parent).run w = (.error e, w') ∧ Loaded w w' := by
  obtain ⟨w₁, hallow, hloaded⟩ := allowParent_view hw hc id parent
  rw [he] at hallow
  rw [setParent_run, hat.id_eq hw, hallow]
  exact ⟨w₁, rfl, hloaded⟩

theorem setParent_allowed (hat : w.At id h) (hw : w.Coherent) (hc : w.drained.isConnected = true)
    {parent : ObjectId} (hok : w.verdict id parent = .ok ()) : ∃ w',
      (setParent h parent).run w =
        (((w.view.placed id (w.session.copyOf h) parent).1.mapError RuntimeError.persistence).map
          fun _ => (), w') ∧ Turns w (w.view.placed id (w.session.copyOf h) parent).2 w' := by
  obtain ⟨w₁, hallow, hloaded⟩ := allowParent_view hw hc id parent
  rw [hok] at hallow
  rw [setParent_run, hat.id_eq hw, hallow]
  have hat₁ := hloaded.stays id h hat
  obtain ⟨w₂, hrun, hturns⟩ := reparent_view hat₁ hloaded.coherent parent
  rw [hloaded.view, hloaded.copy_eq hat] at hrun hturns
  exact ⟨w₂, hrun, hloaded.turns.trans hturns⟩

end World

end Lineage
