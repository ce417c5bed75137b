/-
  Lineage.Proofs.World.Descent

  Which objects stand below which.

  An object stands below another if following parents from it comes there (`Below`).  The
  relation knows of no steps that run out and of no objects that have been visited; the
  chain of an object holds all that can be loaded of what the object stands below
  (`Chain.mem_of_below`), and the failure that cuts the chain short is that of the one
  object on the way that the store does not give (`Chain.cut_iff`).  So the verdict on a
  new parent is that of the relation (`World.verdict_cases`).
-/
import Lineage.Proofs.World.Chains
import Lineage.Proofs.World.Parents

namespace Lineage

/-- An object is another one or stands below it: parents lead up from it to the other.  Every object
on the way can be loaded, be it recycled or not, and none of them is nothing. -/
inductive Below (met : ObjectId → Except StoreError (Option Copy)) (ancestor : ObjectId) :
    ObjectId → Prop
  | self : Below met ancestor ancestor
  | up {id : ObjectId} {c : Copy} (hid : id ≠ .nothing) (hmet : met id = .ok (some c))
    (hparent : c.record.parent ≠ .nothing) (h : Below met ancestor c.record.parent) :
    Below met ancestor id

/-- Parents lead up from an object to one that the store fails to give. -/
def CutShort (met : ObjectId → Except StoreError (Option Copy)) (id : ObjectId) (e : StoreError) :
    Prop :=
  ∃ other, other ≠ .nothing ∧ Below met other id ∧ met other = .error e

/-- There is only one way up. -/
theorem CutShort.unique {met : ObjectId → Except StoreError (Option Copy)} {id : ObjectId}
    {e e' : StoreError} (h : CutShort met id e) (h' : CutShort met id e') : e = e' := by
  obtain ⟨other, -, hbelow, hfailed⟩ := h
  obtain ⟨other', -, hbelow', hfailed'⟩ := h'
  induction hbelow with
  | self =>
    cases hbelow' with
    | self => exact Except.error.inj (hfailed.symm.trans hfailed')
    | up _ hmet _ _ => rw [hfailed] at hmet; cases hmet
  | up _ hmet _ _ ih =>
    cases hbelow' with
    | self => rw [hmet] at hfailed'; cases hfailed'
    | up _ hmet' _ hrest =>
      rw [hmet] at hmet'
      cases hmet'
      exact ih hrest

variable {met : ObjectId → Except StoreError (Option Copy)} {visited : List ObjectId} {r : Record}
  {chain : List Record} {cut : Option StoreError}

/-! ## Chains and what is on the way -/

/-- A chain goes on, or is cut short, only at an object that has a parent. -/
theorem parent_ne_of_above (h : above met visited r ≠ .ok none) : r.parent ≠ .nothing :=
  fun hparent => h (by rw [above, if_pos hparent])

theorem failed_of_above {e : StoreError} (h : above met visited r = .error e) :
    met r.parent = .error e := by
  unfold above at h
  split at h
  · cases h
  · split at h
    · rename_i hmet
      cases h
      exact hmet
    · cases h
    · split at h <;> cases h

namespace Chain

/-- Where a chain starts stands below everything on it. -/
theorem descends (hnamed : Named met) (h : Chain met visited r chain cut) (hid : r.id ≠ .nothing)
    {c : Copy} (hstart : met r.id = .ok (some c)) (hc : c.record = r) {q : Record}
    (hq : q ∈ chain) : Below met q.id r.id := by
  induction h generalizing c with
  | top _ => exact List.mem_singleton.mp hq ▸ .self
  | broken _ => exact List.mem_singleton.mp hq ▸ .self
  | next habove _ ih =>
    rcases List.mem_cons.mp hq with rfl | hq
    · exact .self
    · have hparent := parent_ne_of_above fun hnone => by rw [hnone] at habove; cases habove
      obtain ⟨c', hmet, rfl, -⟩ := above_some habove
      have hid' : c'.record.id = _ := hnamed _ c' hmet
      have hrest := ih (hid' ▸ hparent) (hid' ▸ hmet) rfl hq
      subst hc
      exact .up hid hstart hparent (hid' ▸ hrest)

/-- A chain is cut short by the failure to load something that its start stands below. -/
theorem cut_short (hnamed : Named met) (h : Chain met visited r chain cut) (hid : r.id ≠ .nothing)
    {c : Copy} (hstart : met r.id = .ok (some c)) (hc : c.record = r) {e : StoreError}
    (hcut : cut = some e) : CutShort met r.id e := by
  induction h generalizing c with
  | top _ => cases hcut
  | broken habove =>
    obtain rfl := Option.some.inj hcut
    have hparent := parent_ne_of_above fun hnone => by rw [hnone] at habove; cases habove
    subst hc
    exact ⟨_, hparent, .up hid hstart hparent .self, failed_of_above habove⟩
  | next habove _ ih =>
    have hparent := parent_ne_of_above fun hnone => by rw [hnone] at habove; cases habove
    obtain ⟨c', hmet, rfl, -⟩ := above_some habove
    have hid' : c'.record.id = _ := hnamed _ c' hmet
    obtain ⟨other, hother, hbelow, hfailed⟩ := ih (hid' ▸ hparent) (hid' ▸ hmet) rfl hcut
    subst hc
    exact ⟨other, hother, .up hid hstart hparent (hid' ▸ hbelow), hfailed⟩

/-- The parent of a record on a chain is on the chain too, or had been visited before it.  If the
store fails to give that parent, the chain is cut short by the failure. -/
theorem parent_met (hnamed : Named met) (h : Chain met visited r chain cut) {q : Record}
    (hq : q ∈ chain) (hparent : q.parent ≠ .nothing) :
    (∀ c, met q.parent = .ok (some c) → q.parent ∈ chain.map Record.id ++ visited) ∧
      ∀ e, met q.parent = .error e → cut = some e := by
  induction h with
  | top habove =>
    obtain rfl := List.mem_singleton.mp hq
    rw [above, if_neg hparent] at habove
    refine ⟨fun c hc => ?_, fun e he => by rw [he] at habove; cases habove⟩
    -- A parent that is there ends a chain only if the chain has come past it.
    rw [hc] at habove
    by_contra hnew
    rw [List.map_singleton, List.singleton_append] at hnew
    dsimp only at habove
    rw [if_neg hnew] at habove
    cases habove
  | broken habove =>
    obtain rfl := List.mem_singleton.mp hq
    have hfailed := failed_of_above habove
    refine ⟨fun c hc => (by rw [hfailed] at hc; cases hc), fun e he => ?_⟩
    rw [hfailed] at he
    cases he
    rfl
  | next habove hrest ih =>
    rcases List.mem_cons.mp hq with rfl | hq
    · obtain ⟨c', hmet, rfl, -⟩ := above_some habove
      refine ⟨fun c hc => ?_, fun e he => by rw [hmet] at he; cases he⟩
      obtain ⟨rest, rfl⟩ := hrest.head
      rw [List.map_cons, List.map_cons, hnamed _ c' hmet]
      exact List.mem_append_left _ (List.mem_cons_of_mem _ List.mem_cons_self)
    · obtain ⟨hmem, hcut⟩ := ih hq
      refine ⟨fun c hc => ?_, hcut⟩
      rw [List.map_cons, List.cons_append]
      exact List.perm_middle.mem_iff.mp (hmem c hc)

section

variable (hnamed : Named met) (h : Chain met [] r chain cut) {c : Copy}
  (hstart : met r.id = .ok (some c)) (hc : c.record = r)
include hnamed h hstart hc

/-- A record on a chain is what its id is loaded as. -/
theorem met_mem {q : Record} (hq : q ∈ chain) : ∃ c', met q.id = .ok (some c') ∧ c'.record = q := by
  rcases h.loaded hnamed hq with rfl | hmet
  · exact ⟨c, hstart, hc⟩
  · exact hmet

/-- Whatever the start of a chain stands below is on the chain, or is the parent of a record on it
and cannot be loaded. -/
theorem climbs {ancestor : ObjectId} (hbelow : Below met ancestor r.id) :
    ancestor ∈ chain.map Record.id ∨
      ∃ q ∈ chain, q.parent = ancestor ∧ q.parent ≠ .nothing ∧ ∀ c', met ancestor ≠ .ok (some c') := by
  have hfirst : r.id ∈ chain.map Record.id := by
    obtain ⟨rest, rfl⟩ := h.head
    exact List.mem_cons_self
  -- Induction on the way up, from any object on the chain.
  generalize r.id = id at hbelow hfirst
  induction hbelow with
  | self => exact .inl hfirst
  | @up id c' _ hmet hparent habove ih =>
    obtain ⟨q, hq, rfl⟩ := List.mem_map.mp hfirst
    obtain ⟨c'', hmet', rfl⟩ := met_mem hnamed h hstart hc hq
    obtain rfl : c' = c'' := Option.some.inj (Except.ok.inj (hmet.symm.trans hmet'))
    by_cases hloaded : ∃ c'', met c'.record.parent = .ok (some c'')
    · obtain ⟨c'', hc''⟩ := hloaded
      have hmem := (h.parent_met hnamed hq hparent).1 c'' hc''
      rw [List.append_nil] at hmem
      exact ih hmem
    · -- No parent leads on from an object that cannot be loaded.
      cases habove with
      | self => exact .inr ⟨_, hq, rfl, hparent, fun c'' hc'' => hloaded ⟨c'', hc''⟩⟩
      | up _ hmet'' _ _ => exact absurd ⟨_, hmet''⟩ hloaded

/-- An object that can be loaded is on a chain exactly when the start of the chain stands below it. -/
theorem mem_iff_below (hid : r.id ≠ .nothing) {ancestor : ObjectId} {c' : Copy}
    (hloaded : met ancestor = .ok (some c')) :
    ancestor ∈ chain.map Record.id ↔ Below met ancestor r.id := by
  constructor
  · intro hmem
    obtain ⟨q, hq, rfl⟩ := List.mem_map.mp hmem
    exact h.descends hnamed hid hstart hc hq
  · intro hbelow
    rcases climbs hnamed h hstart hc hbelow with hmem | ⟨q, -, -, -, hnot⟩
    · exact hmem
    · exact absurd hloaded (hnot c')

/-- A chain is cut short exactly by the failure to load what its start stands below. -/
theorem cut_iff (hid : r.id ≠ .nothing) (e : StoreError) :
    cut = some e ↔ CutShort met r.id e := by
  refine ⟨h.cut_short hnamed hid hstart hc, ?_⟩
  rintro ⟨other, -, hbelow, hfailed⟩
  rcases climbs hnamed h hstart hc hbelow with hmem | ⟨q, hq, rfl, hparent, -⟩
  · obtain ⟨q, hq, rfl⟩ := List.mem_map.mp hmem
    obtain ⟨c', hmet, -⟩ := met_mem hnamed h hstart hc hq
    rw [hfailed] at hmet
    cases hmet
  · exact (h.parent_met hnamed hq hparent).2 e hfailed

end

end Chain

/-- A probe for one object finds it where its id is on the chain. -/
theorem findSome?_isOf (id : ObjectId) (chain : List Record) :
    chain.findSome? (World.isOf id) = if id ∈ chain.map Record.id then some () else none := by
  induction chain with
  | nil => rfl
  | cons r chain ih =>
    rw [List.findSome?_cons, World.isOf, List.map_cons]
    by_cases hr : r.id = id
    · rw [if_pos hr, if_pos (hr ▸ List.mem_cons_self)]
    · rw [if_neg hr]
      dsimp only
      rw [ih]
      refine if_congr ?_ rfl rfl
      rw [List.mem_cons]
      exact (or_iff_right fun h => hr h.symm).symm

namespace World

variable {w : World} {id : ObjectId} {h : Handle}

/-- A resident object may get a parent that does not stand below it, unless the store fails to give
something that the parent stands below. -/
theorem verdict_cases (hw : w.Coherent) (hc : w.drained.isConnected = true) (hat : w.At id h)
    (parent : ObjectId) :
    (Below w.met id parent ∧ w.verdict id parent = .error (.recursiveParent id parent)) ∨
    (¬Below w.met id parent ∧ ∃ e, CutShort w.met parent e ∧
      w.verdict id parent = .error (.persistence e)) ∨
    (¬Below w.met id parent ∧ (∀ e, ¬CutShort w.met parent e) ∧ w.verdict id parent = .ok ()) := by
  unfold verdict
  by_cases hself : parent = id
  · rw [if_pos hself]
    exact .inl ⟨hself ▸ .self, rfl⟩
  by_cases hnothing : parent = .nothing
  · rw [if_neg hself, if_pos hnothing]
    refine .inr (.inr ⟨fun hbelow => ?_, ?_, rfl⟩)
    · cases hbelow with
      | self => exact hself rfl
      | up hid _ _ _ => exact hid hnothing
    · rintro e ⟨other, hother, hbelow, -⟩
      cases hbelow with
      | self => exact hother hnothing
      | up hid _ _ _ => exact hid hnothing
  rw [if_neg hself, if_neg hnothing, ← met_connected hc]
  rcases hmet : w.met parent with e | _ | c
  -- The parent itself cannot be loaded.
  · refine .inr (.inl ⟨fun hbelow => ?_, e, ⟨parent, hnothing, .self, hmet⟩, rfl⟩)
    cases hbelow with
    | self => exact hself rfl
    | up _ hmet' _ _ => rw [hmet] at hmet'; cases hmet'
  · refine .inr (.inr ⟨fun hbelow => ?_, ?_, rfl⟩)
    · cases hbelow with
      | self => exact hself rfl
      | up _ hmet' _ _ => rw [hmet] at hmet'; cases hmet'
    · rintro e ⟨other, -, hbelow, hfailed⟩
      cases hbelow with
      | self => rw [hmet] at hfailed; cases hfailed
      | up _ hmet' _ _ => rw [hmet] at hmet'; cases hmet'
  · obtain rfl : c.record.id = parent := met_id hw hmet
    obtain ⟨chain, cut, hchain⟩ := has_chain hw c.record
    have hmem := hchain.mem_iff_below (met_named hw) hmet rfl hnothing hat.met
    have hcut := hchain.cut_iff (met_named hw) hmet rfl hnothing
    have hascent : w.ascent (isOf id) c.record = along (isOf id) chain cut := by
      rw [ascent, ← met_connected hc]
      exact ascend_reach hw hchain (isOf id)
    dsimp only
    rw [hascent]
    unfold along
    rw [findSome?_isOf]
    by_cases hbelow : Below w.met id c.record.id
    · rw [if_pos (hmem.mpr hbelow)]
      exact .inl ⟨hbelow, rfl⟩
    · rw [if_neg (fun hid => hbelow (hmem.mp hid))]
      refine .inr ?_
      cases cut with
      | none => exact .inr ⟨hbelow, fun e he => Option.some_ne_none e ((hcut e).mpr he).symm, rfl⟩
      | some e => exact .inl ⟨hbelow, e, (hcut e).mp rfl, rfl⟩

end World

end Lineage
