/-
  Lineage.Proofs.World.Ascent

  Following parents, listing and compiling, as far as it can be told by ids.

  What is found along a chain depends on what is met of the objects on it (`ascend`,
  `climb_browses`), and not on how many steps are allowed, as long as they are more than
  there are objects to be seen (`ascend_enough`).

  A listing gives the resident copies of the objects that are seen and wanted
  (`list_run`).  What a method is compiled to is what its source compiles to as it is
  seen, whether or not that was kept (`compiledMethod_run`).
-/
import Mathlib.Data.List.Nodup
import Mathlib.Data.List.Perm.Subperm
import Lineage.Proofs.World.Browsing

namespace Lineage

/-- What `probe` finds first on a chain, past the `visited` ids. -/
def ascend {α : Type} (seen : ObjectId → Except StoreError (Option Copy)) (probe : Record → Option α) :
    Nat → List ObjectId → Record → Except StoreError (Option α)
  | 0, _, _ => .ok none
  | fuel + 1, visited, record =>
    if visited.contains record.id then .ok none
    else match probe record with
      | some found => .ok (some found)
      | none =>
        if record.parent = .nothing then .ok none
        else match seen record.parent with
          | .error e => .error e
          | .ok none => .ok none
          | .ok (some c) => ascend seen probe fuel (record.id :: visited) c.record

/-- No more objects than `bound` can be seen. -/
def Bounded (seen : ObjectId → Except StoreError (Option Copy)) (bound : Nat) : Prop :=
  ∀ ids : List ObjectId, ids.Nodup → (∀ id ∈ ids, seen id ≠ .ok none) → ids.length ≤ bound

section

variable {α : Type} {seen : ObjectId → Except StoreError (Option Copy)} {probe : Record → Option α}

/-- A chain has come past the `visited` ids, each once, to a record, and all of them are seen. -/
structure Climbed (seen : ObjectId → Except StoreError (Option Copy)) (visited : List ObjectId)
    (record : Record) : Prop where
  nodup : visited.Nodup
  past : ∀ id ∈ visited, seen id ≠ .ok none
  here : seen record.id ≠ .ok none

namespace Climbed

variable {visited : List ObjectId} {record parent : Record}

theorem start (h : seen record.id ≠ .ok none) : Climbed seen [] record where
  nodup := .nil
  past := fun _ hid => absurd hid List.not_mem_nil
  here := h

theorem next (h : Climbed seen visited record) (hnew : ¬visited.contains record.id = true)
    (hparent : seen parent.id ≠ .ok none) : Climbed seen (record.id :: visited) parent where
  nodup := List.nodup_cons.mpr ⟨fun hmem => hnew (List.contains_iff_mem.mpr hmem), h.nodup⟩
  past := List.forall_mem_cons.mpr ⟨h.here, h.past⟩
  here := hparent

end Climbed

/-- Further steps find nothing else.  Induction on the steps: each comes to an object that has not
been visited, and no more can be visited than can be seen. -/
theorem ascend_enough {bound fuel fuel' : Nat} (hbound : Bounded seen bound)
    (hnamed : ∀ id c, seen id = .ok (some c) → c.record.id = id) {visited : List ObjectId}
    {record : Record} (hclimbed : Climbed seen visited record) (hfuel : bound < fuel + visited.length)
    (hfuel' : bound < fuel' + visited.length) :
    ascend seen probe fuel visited record = ascend seen probe fuel' visited record := by
  induction fuel generalizing fuel' visited record with
  | zero =>
    have hlength := hbound visited hclimbed.nodup hclimbed.past
    omega
  | succ fuel ih =>
    have hlength := hbound visited hclimbed.nodup hclimbed.past
    obtain _ | fuel' := fuel'
    · omega
    · simp only [ascend]
      by_cases hagain : visited.contains record.id = true
      · rw [if_pos hagain, if_pos hagain]
      · rw [if_neg hagain, if_neg hagain]
        cases probe record with
        | some found => rfl
        | none =>
          dsimp only
          split
          · rfl
          · cases hparent : seen record.parent with
            | error e => rfl
            | ok found =>
              cases found with
              | none => rfl
              | some c =>
                -- The next object can be seen, so it counts towards the bound.
                have hnext : seen c.record.id ≠ .ok none := by
                  rw [hnamed _ c hparent, hparent]
                  exact fun h => Option.some_ne_none _ (Except.ok.inj h)
                refine ih (hclimbed.next hagain hnext) ?_ ?_ <;>
                  · rw [List.length_cons]
                    omega

end

namespace World

variable {w : World} {h : Handle}

/-- Induction on the fuel; no object that is loaded on the way changes what is met. -/
theorem climb_browses {α : Type} (hw : w.Coherent) (probe : Record → Option α) (fuel : Nat)
    (visited : List ObjectId) (h : Handle) : ∃ w', (climb probe fuel visited h).run w =
      ((ascend w.met probe fuel visited (w.session.copyOf h).record).mapError
        RuntimeError.persistence, w') ∧ Browsed w w' := by
  induction fuel generalizing w visited h with
  | zero => exact ⟨w, rfl, .refl hw⟩
  | succ fuel ih =>
    have hrecord : recordOf h w = ((w.session.copyOf h).record, w) := rfl
    simp only [climb, ascend]
    rw [run_lift_bind, hrecord]
    dsimp only
    by_cases hagain : visited.contains (w.session.copyOf h).record.id = true
    · rw [if_pos hagain, if_pos hagain]
      exact ⟨w, rfl, .refl hw⟩
    · rw [if_neg hagain, if_neg hagain]
      cases probe (w.session.copyOf h).record with
      | some found => exact ⟨w, rfl, .refl hw⟩
      | none =>
        dsimp only
        by_cases hlast : (w.session.copyOf h).record.parent = .nothing
        · rw [if_pos hlast, if_pos hlast]
          exact ⟨w, rfl, .refl hw⟩
        · rw [if_neg hlast, if_neg hlast, run_bind]
          obtain ⟨result, w₁, hrun, hbrowsed, hgives⟩ :=
            loadWith_browses hw true (w.session.copyOf h).record.parent
          rw [hrun]
          generalize hparent : w.met (w.session.copyOf h).record.parent = met at hgives
          cases hgives with
          | failed e => exact ⟨w₁, rfl, hbrowsed⟩
          | missing => exact ⟨w₁, rfl, hbrowsed⟩
          | recycled hskip => simp at hskip
          | @found c _ g hat =>
            obtain ⟨w₂, hclimb, hclimbed⟩ :=
              ih hbrowsed.coherent ((w.session.copyOf h).record.id :: visited) g
            -- The parent's copy is what was met of the parent before it was loaded.
            have hcopy : w₁.session.copyOf g = c := hbrowsed.copy_met hat hparent
            rw [hcopy, hbrowsed.met] at hclimb
            exact ⟨w₂, hclimb, hbrowsed.trans hclimbed⟩

theorem resolve_browses {α : Type} (hw : w.Coherent) (h : Handle) (probe : Record → Option α) :
    ∃ w', (resolve h probe).run w =
      ((ascend w.met probe (reach w) [] (w.session.copyOf h).record).mapError
        RuntimeError.persistence, w') ∧ Browsed w w' :=
  climb_browses hw probe (reach w) [] h

/-- What is found along the chain of an object. -/
def ascent {α : Type} (w : World) (probe : Record → Option α) (r : Record) :
    Except StoreError (Option α) :=
  ascend w.seen probe (reach w) [] r

theorem resolve_run {α : Type} (hw : w.Coherent) (hc : w.drained.isConnected = true)
    (h : Handle) (probe : Record → Option α) : ∃ w', (resolve h probe).run w =
      ((w.ascent probe (w.session.copyOf h).record).mapError RuntimeError.persistence, w') ∧
        Loaded w w' := by
  obtain ⟨w', hrun, hbrowsed⟩ := resolve_browses hw h probe
  rw [met_connected hc] at hrun
  exact ⟨w', hrun, hbrowsed.toLoaded⟩

/-! ## How far chains reach -/

/-- Waiting writes do not create objects.  Induction on the writes. -/
theorem drained_absent (hw : w.Coherent) {id : ObjectId} (hr : w.store.read id = .ok none) :
    w.drained.read id = .ok none := by
  have hjobs (jobs : List Job) {s : Store} (hs : s.Faithful) (hr : s.read id = .ok none) :
      (jobs.foldl applyJob s).read id = .ok none := by
    induction jobs generalizing s with
    | nil => exact hr
    | cons job jobs ih =>
      exact ih (applyJob_faithful hs job) (Store.read_update_absent hs hr job.id job.update)
  exact hjobs _ hw.store hr

/-- What is seen is resident or stored. -/
theorem seen_bounded (hw : w.Coherent) :
    Bounded w.seen (w.store.size + w.session.resident.length) := by
  intro ids hnodup hseen
  have hsplit := List.length_eq_length_filter_add (l := ids) fun id => w.session.resident.has id
  have hresident : (ids.filter fun id => w.session.resident.has id).length ≤
      w.session.resident.length := by
    have hsubset : (ids.filter fun id => w.session.resident.has id) ⊆
        w.session.resident.map Prod.fst := by
      intro id hid
      obtain ⟨h, hres⟩ := Option.isSome_iff_exists.mp (List.mem_filter.mp hid).2
      exact List.mem_map_of_mem (f := Prod.fst) (Dict.mem_of_get? hres)
    have hlength := (List.Nodup.subperm (List.Nodup.filter _ hnodup) hsubset).length_le
    rw [List.length_map] at hlength
    exact hlength
  have hstored : (ids.filter fun id => !w.session.resident.has id).length ≤ w.store.size := by
    refine Store.length_le_size (List.Nodup.filter _ hnodup) fun id hid hnone => ?_
    obtain ⟨hmem, habsent⟩ := List.mem_filter.mp hid
    refine hseen id hmem ?_
    rw [seen_absent (Option.isNone_iff_eq_none.mp ?_), Store.fresh, drained_absent hw hnone]
    · rfl
    · exact (Option.not_isSome _).symm.trans habsent
  omega

/-- The same is found in worlds that look the same. -/
theorem ascent_congr {α : Type} {w' : World} (hw : w.Coherent) (hw' : w'.Coherent)
    (hseen : w'.seen = w.seen) (probe : Record → Option α) {r : Record} (hr : w.seen r.id ≠ .ok none) :
    w'.ascent probe r = w.ascent probe r := by
  have hbound' := seen_bounded hw'
  rw [ascent, ascent, hseen]
  rw [hseen] at hbound'
  have hnamed : ∀ id c, w.seen id = .ok (some c) → c.record.id = id := fun _ _ hc => seen_id hw hc
  -- Both have the steps that the world with fewer of them needs.
  rcases Nat.le_total (w.store.size + w.session.resident.length)
    (w'.store.size + w'.session.resident.length) with hle | hle
  · refine ascend_enough (seen_bounded hw) hnamed (.start hr) ?_ ?_ <;>
      simp only [reach, List.length_nil] <;> omega
  · refine ascend_enough hbound' hnamed (.start hr) ?_ ?_ <;>
      simp only [reach, List.length_nil] <;> omega

end World

end Lineage

namespace Lineage

-- Nothing here depends on what the compiler makes of a source.
attribute [local irreducible] Program.compile

namespace View

/-- Whether an object is seen, and wanted in a listing. -/
def shows (v : View) (recycledToo : Bool) (id : ObjectId) : Bool :=
  match v.seen id with
  | .ok (some c) => recycledToo || !c.record.recycled
  | _ => false

/-- The objects of a listing. -/
def listed (v : View) (recycledToo : Bool) : Except StoreError (List ObjectId) :=
  (Store.list recycledToo v.store).1.map fun records =>
    (records.map Record.id).filter (v.shows recycledToo)

/-- What the method of an object is compiled to. -/
def compiled (v : View) (definer : ObjectId) (name : String) : Except RuntimeError Program :=
  match v.seen definer with
  | .error e => .error (.persistence e)
  | .ok none => .error (.methodNotFound definer name)
  | .ok (some c) =>
    match c.record.methods.get? name with
    | none => .error (.methodNotFound definer name)
    | some m =>
      match Program.compile m.source v.runtime.customErrors with
      | .error e => .error (.methodFailed definer name (.compile e))
      | .ok p => .ok p

end View

namespace World

variable {w : World}

/-! ## Listings -/

/-- The handles of a listing, one for each object. -/
def Lists (w : World) : Except StoreError (List ObjectId) → Except RuntimeError (List Handle) → Prop
  | .error e, result => result = .error (.persistence e)
  | .ok ids, result => ∃ handles, result = .ok handles ∧ List.Forall₂ w.At ids handles

/-- Induction on the records; adopting one changes nothing of what is seen of the others. -/
theorem adoptAll_run (hw : w.Coherent) (recycledToo : Bool) {records : List Record}
    (hread : ∀ r ∈ records, w.drained.read r.id = .ok (some r)) : ∃ handles w',
      adoptAll recycledToo records w = (handles, w') ∧ Loaded w w' ∧
        List.Forall₂ w'.At ((records.map Record.id).filter (w.view.shows recycledToo)) handles := by
  induction records generalizing w with
  | nil => exact ⟨[], w, rfl, .refl hw, .nil⟩
  | cons record rest ih =>
    obtain ⟨h, w₁, hadopt, hloaded, hat⟩ := adopt_loaded hw (hread record List.mem_cons_self)
    have hread₁ : ∀ r ∈ rest, w₁.drained.read r.id = .ok (some r) := by
      intro r hr
      rw [hloaded.drained.read]
      exact hread r (List.mem_cons_of_mem _ hr)
    obtain ⟨more, w₂, hmore, hloaded₂, hall⟩ := ih hloaded.coherent hread₁
    rw [hloaded.view] at hall
    have hrun : adoptAll recycledToo (record :: rest) w =
        (if recycledToo || !(w₁.session.copyOf h).record.recycled then h :: more else more, w₂) := by
      show (adopt record >>= _) w = _
      simp only [Bind.bind, StateT.bind, hadopt]
      show (if _ then _ else _, _) = _
      rw [hmore]
    -- Whether an object is shown is decided by its copy, and so the same before and after adoption.
    have hshows : w.view.shows recycledToo record.id =
        (recycledToo || !(w₁.session.copyOf h).record.recycled) := by
      rw [View.shows, show w.view.seen = w₁.seen from hloaded.seen.symm, hat.seen]
    refine ⟨_, w₂, hrun, hloaded.trans hloaded₂, ?_⟩
    rw [List.map_cons, List.filter_cons, hshows]
    split
    · exact .cons (hloaded₂.stays _ _ hat) hall
    · exact hall

theorem list_run (hw : w.Coherent) (hc : w.drained.isConnected = true) (hordered : w.drained.Ordered)
    (recycledToo : Bool) : ∃ result w', (list recycledToo).run w = (result, w') ∧ Loaded w w' ∧
      w'.Lists (w.view.listed recycledToo) result := by
  have hloaded : Loaded w (w.consulted (Store.list recycledToo w.drained).2) :=
    consulted_loaded hw (Store.list_same recycledToo w.drained)
  have hsame : (Store.list recycledToo w.view.store).1 = (Store.list recycledToo w.drained).1 :=
    w.drained_same.list recycledToo
  have haccess : (access (Store.list recycledToo)).run w.settled =
      ((Store.list recycledToo w.drained).1.mapError RuntimeError.persistence,
        w.consulted (Store.list recycledToo w.drained).2) := access_run _ _
  unfold list
  rw [run_lift_bind, settle_run, run_bind, haccess, View.listed, hsame]
  cases hlist : (Store.list recycledToo w.drained).1 with
  | error e => exact ⟨_, _, rfl, hloaded, rfl⟩
  | ok records =>
    have hread : ∀ r ∈ records, (w.consulted (Store.list recycledToo w.drained).2).drained.read r.id =
        .ok (some r) := fun r hr => by
      rw [hloaded.drained.read]
      exact Store.read_of_list (drained_faithful hw) hordered hc hlist hr
    obtain ⟨handles, w', hrun, hadopted, hall⟩ := adoptAll_run hloaded.coherent recycledToo hread
    rw [hloaded.view] at hall
    refine ⟨.ok handles, w', ?_, hloaded.trans hadopted, handles, rfl, hall⟩
    exact congrArg (fun p : List Handle × World => (Except.ok p.1, p.2)) hrun

/-! ## Compiled methods -/

theorem keeping_browsed {definer : ObjectId} {name : String} {p : Program} (hw : w.Coherent)
    {h : Handle} {m : MethodDef} (hat : w.At definer h)
    (hm : (w.session.copyOf h).record.methods.get? name = some m)
    (hp : Program.compile m.source w.session.runtime.customErrors = .ok p) :
    Browsed w { w with session := w.session.keeping definer name p } where
  coherent := ⟨hw.session.keeping hat hm hp, hw.store⟩
  view := rfl
  stays := fun _ _ h => h
  met := rfl
  given := fun _ h => h
  copies := fun _ _ => rfl

/-- What is kept of a method is what its source compiles to, as its owner is met. -/
theorem compiledMethod_browses (hw : w.Coherent) (definer : ObjectId) (name : String) : ∃ w',
    (compiledMethod definer name).run w = ({ w.view with seen := w.met }.compiled definer name, w') ∧
      Browsed w w' := by
  rw [compiledMethod, run_get_bind, View.compiled]
  cases hkept : keptProgram w.session definer name with
  | some p =>
    -- A program is kept only for a resident object that has the method it was compiled from.
    obtain ⟨h, m, hat, hm, hp⟩ := hw.session.coherent definer name p hkept
    dsimp only
    rw [At.met hat]
    dsimp only
    rw [hm]
    dsimp only
    rw [show w.view.runtime = w.session.runtime from rfl, hp]
    exact ⟨w, rfl, .refl hw⟩
  | none =>
    obtain ⟨result, w₁, hload, hbrowsed, hgives⟩ := loadWith_browses hw true definer
    dsimp only
    rw [run_bind, hload]
    generalize hmet : w.met definer = met at hgives
    cases hgives with
    | failed e => exact ⟨w₁, rfl, hbrowsed⟩
    | missing => exact ⟨w₁, rfl, hbrowsed⟩
    | recycled hskip => simp at hskip
    | @found c _ g hat =>
      have hcopy : w₁.session.copyOf g = c := hbrowsed.copy_met hat hmet
      have hrecord : recordOf g w₁ = (c.record, w₁) := by
        rw [← hcopy]
        rfl
      have hruntime : w₁.session.runtime = w.session.runtime := congrArg View.runtime hbrowsed.view
      dsimp only
      rw [run_lift_bind, hrecord]
      dsimp only
      cases hm : c.record.methods.get? name with
      | none => exact ⟨w₁, rfl, hbrowsed⟩
      | some m =>
        dsimp only
        rw [run_get_bind, show w.view.runtime = w₁.session.runtime from hruntime.symm]
        cases hp : Program.compile m.source w₁.session.runtime.customErrors with
        | error e => exact ⟨w₁, rfl, hbrowsed⟩
        | ok p =>
          rw [← hcopy] at hm
          exact ⟨_, rfl, hbrowsed.trans (keeping_browsed hbrowsed.coherent hat hm hp)⟩

/-- With a connected store a method is compiled as it is seen. -/
theorem compiledMethod_run (hw : w.Coherent) (hc : w.drained.isConnected = true) (definer : ObjectId)
    (name : String) : ∃ w', (compiledMethod definer name).run w = (w.view.compiled definer name, w') ∧
      Loaded w w' := by
  obtain ⟨w', hrun, hbrowsed⟩ := compiledMethod_browses hw definer name
  rw [met_connected hc] at hrun
  exact ⟨w', hrun, hbrowsed.toLoaded⟩

end World

end Lineage
