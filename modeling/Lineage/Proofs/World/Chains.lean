/-
  Lineage.Proofs.World.Chains

  The chains of parents along which lookups go.

  The chain of an object is spelled out as the list of records that following parents comes
  to (`Chain`).  There is exactly one (`Chain.unique`, `exists_chain`), it meets no id twice
  (`Chain.nodup`), and so it takes no more steps than a lookup is allowed
  (`Chain.length_le`).  A lookup goes along it and comes to what it finds first
  (`World.resolve_along`); only a store that fails cuts a chain short.
-/
import Lineage.Proofs.World.Ascent

namespace Lineage

/-! ## Chains -/

section

variable {met : ObjectId → Except StoreError (Option Copy)} {visited : List ObjectId}

/-- What is met of an object has its id. -/
def Named (met : ObjectId → Except StoreError (Option Copy)) : Prop :=
  ∀ id c, met id = .ok (some c) → c.record.id = id

/-- No more than so many objects are there to be met. -/
def AtMost (bound : Nat) (met : ObjectId → Except StoreError (Option Copy)) : Prop :=
  ∀ ids : List ObjectId, ids.Nodup → (∀ id ∈ ids, ∃ c, met id = .ok (some c)) → ids.length ≤ bound

/-- The record that a chain comes to next, if it does not end at an object without a parent, at a
parent that is not there, or before an id that has been visited. -/
def above (met : ObjectId → Except StoreError (Option Copy)) (visited : List ObjectId)
    (r : Record) : Except StoreError (Option Record) :=
  if r.parent = .nothing then .ok none
  else match met r.parent with
    | .error e => .error e
    | .ok none => .ok none
    | .ok (some c) => if r.parent ∈ visited then .ok none else .ok (some c.record)

/-- The records on a chain, the nearest first, and the failure that cut it short, if one did. -/
inductive Chain (met : ObjectId → Except StoreError (Option Copy)) :
    List ObjectId → Record → List Record → Option StoreError → Prop
  | top {visited : List ObjectId} {r : Record} (h : above met (r.id :: visited) r = .ok none) :
    Chain met visited r [r] none
  | broken {visited : List ObjectId} {r : Record} {e : StoreError}
    (h : above met (r.id :: visited) r = .error e) : Chain met visited r [r] (some e)
  | next {visited : List ObjectId} {r parent : Record} {chain : List Record}
    {cut : Option StoreError} (h : above met (r.id :: visited) r = .ok (some parent))
    (rest : Chain met (r.id :: visited) parent chain cut) : Chain met visited r (r :: chain) cut

variable {r parent : Record} {chain : List Record} {cut : Option StoreError}

theorem above_some (h : above met visited r = .ok (some parent)) :
    ∃ c, met r.parent = .ok (some c) ∧ c.record = parent ∧ r.parent ∉ visited := by
  unfold above at h
  split at h
  · cases h
  · split at h
    · cases h
    · cases h
    · rename_i c hmet
      split at h
      · cases h
      · rename_i hnew
        cases h
        exact ⟨c, hmet, rfl, hnew⟩

namespace Chain

/-- Induction on the one chain; what a record leads to does not depend on the chain. -/
theorem unique (h : Chain met visited r chain cut) {chain' : List Record} {cut' : Option StoreError}
    (h' : Chain met visited r chain' cut') : chain' = chain ∧ cut' = cut := by
  induction h generalizing chain' cut' with
  | top habove =>
    cases h' with
    | top _ => exact ⟨rfl, rfl⟩
    | broken habove' => rw [habove] at habove'; cases habove'
    | next habove' _ => rw [habove] at habove'; cases habove'
  | broken habove =>
    cases h' with
    | top habove' => rw [habove] at habove'; cases habove'
    | broken habove' => rw [habove] at habove'; cases habove'; exact ⟨rfl, rfl⟩
    | next habove' _ => rw [habove] at habove'; cases habove'
  | next habove _ ih =>
    cases h' with
    | top habove' => rw [habove] at habove'; cases habove'
    | broken habove' => rw [habove] at habove'; cases habove'
    | next habove' rest' =>
      rw [habove] at habove'
      cases habove'
      obtain ⟨hchain, hcut⟩ := ih rest'
      exact ⟨congrArg _ hchain, hcut⟩

/-- The first record is where the chain starts. -/
theorem head (h : Chain met visited r chain cut) : ∃ rest, chain = r :: rest := by
  cases h with
  | top _ => exact ⟨[], rfl⟩
  | broken _ => exact ⟨[], rfl⟩
  | next _ _ => exact ⟨_, rfl⟩

end Chain

/-- Each record on a chain but the first is what its id is met as. -/
theorem Chain.loaded (hnamed : Named met) (h : Chain met visited r chain cut) {q : Record}
    (hq : q ∈ chain) : q = r ∨ ∃ c, met q.id = .ok (some c) ∧ c.record = q := by
  induction h with
  | top _ => exact .inl (List.mem_singleton.mp hq)
  | broken _ => exact .inl (List.mem_singleton.mp hq)
  | next habove _ ih =>
    rcases List.mem_cons.mp hq with rfl | hq
    · exact .inl rfl
    · rcases ih hq with rfl | hmet
      · obtain ⟨c, hmet, rfl, -⟩ := above_some habove
        exact .inr ⟨c, by rw [hnamed _ c hmet, hmet], rfl⟩
      · exact .inr hmet

/-- A chain has come past the `visited` ids to a record: no id was met twice, and all but that of
the record where it started were loaded. -/
structure Passed (met : ObjectId → Except StoreError (Option Copy)) (visited : List ObjectId)
    (r : Record) : Prop where
  nodup : (r.id :: visited).Nodup
  loaded : ∀ id ∈ (r.id :: visited).dropLast, ∃ c, met id = .ok (some c)

namespace Passed

theorem start (r : Record) : Passed met [] r :=
  ⟨List.nodup_singleton _, fun _ hid => absurd hid List.not_mem_nil⟩

theorem next (hnamed : Named met) (h : Passed met visited r)
    (habove : above met (r.id :: visited) r = .ok (some parent)) :
    Passed met (r.id :: visited) parent := by
  obtain ⟨c, hmet, rfl, hnew⟩ := above_some habove
  have hid : c.record.id = r.parent := hnamed _ c hmet
  refine ⟨List.nodup_cons.mpr ⟨hid ▸ hnew, h.nodup⟩, fun id hmem => ?_⟩
  -- The last of the list, which need not have been loaded, is still where the chain started.
  rw [List.dropLast_cons_of_ne_nil (List.cons_ne_nil _ _)] at hmem
  rcases List.mem_cons.mp hmem with rfl | hmem
  · exact ⟨c, by rw [hid, hmet]⟩
  · exact h.loaded id hmem

/-- No more ids have been visited than objects can be loaded. -/
theorem length_le {bound : Nat} (hbound : AtMost bound met) (h : Passed met visited r) :
    visited.length ≤ bound := by
  -- Without the start there are as many ids as had been visited before the record.
  have hlength := hbound _ (h.nodup.sublist (List.dropLast_sublist _)) h.loaded
  rw [List.length_dropLast, List.length_cons] at hlength
  omega

end Passed

/-- No id stands twice on a chain, and none that was visited before. -/
theorem Chain.nodup (hnamed : Named met) (h : Chain met visited r chain cut)
    (hpassed : Passed met visited r) : (chain.map Record.id ++ visited).Nodup := by
  induction h with
  | top _ => exact hpassed.nodup
  | broken _ => exact hpassed.nodup
  | next habove _ ih => exact List.nodup_middle.mp (ih (hpassed.next hnamed habove))

section

variable {bound : Nat} (hbound : AtMost bound met) (hnamed : Named met)
include hbound hnamed

theorem Chain.length_le (h : Chain met visited r chain cut) (hpassed : Passed met visited r) :
    chain.length + visited.length ≤ bound + 1 := by
  induction h with
  | top _ =>
    have hvisited := hpassed.length_le hbound
    rw [List.length_singleton]
    omega
  | broken _ =>
    have hvisited := hpassed.length_le hbound
    rw [List.length_singleton]
    omega
  | next habove _ ih =>
    have hrest := ih (hpassed.next hnamed habove)
    rw [List.length_cons] at hrest ⊢
    omega

/-- Every chain ends.  Induction on how many objects are left that it could come to. -/
theorem exists_chain {left : Nat} (hleft : bound < left + visited.length)
    (hpassed : Passed met visited r) : ∃ chain cut, Chain met visited r chain cut := by
  induction left generalizing visited r with
  | zero =>
    have hvisited := hpassed.length_le hbound
    omega
  | succ left ih =>
    rcases habove : above met (r.id :: visited) r with e | _ | parent
    · exact ⟨[r], some e, .broken habove⟩
    · exact ⟨[r], none, .top habove⟩
    · have hleft' : bound < left + (r.id :: visited).length := by
        rw [List.length_cons]
        omega
      -- An id more has been visited, and so one object fewer is left.
      obtain ⟨chain, cut, hchain⟩ := ih hleft' (hpassed.next hnamed habove)
      exact ⟨r :: chain, cut, .next habove hchain⟩

end

/-! ## Looking along a chain -/

/-- What `probe` finds first on a chain. -/
def along {α : Type} (probe : Record → Option α) (chain : List Record) (cut : Option StoreError) :
    Except StoreError (Option α) :=
  match chain.findSome? probe with
  | some found => .ok (some found)
  | none => match cut with
    | none => .ok none
    | some e => .error e

theorem along_cons {α : Type} (probe : Record → Option α) (r : Record) (chain : List Record)
    (cut : Option StoreError) : along probe (r :: chain) cut =
      match probe r with
      | some found => .ok (some found)
      | none => along probe chain cut := by
  unfold along
  rw [List.findSome?_cons]
  cases probe r <;> rfl

/-- One step of following parents, from a record that has not been visited. -/
theorem ascend_above {α : Type} {probe : Record → Option α} (hnamed : Named met) (fuel : Nat)
    (hnew : r.id ∉ visited) : ascend met probe (fuel + 1) visited r = match probe r with
      | some found => .ok (some found)
      | none => match above met (r.id :: visited) r with
        | .error e => .error e
        | .ok none => .ok none
        | .ok (some parent) => ascend met probe fuel (r.id :: visited) parent := by
  rw [ascend, if_neg (fun h => hnew (List.contains_iff_mem.mp h)), above]
  cases probe r with
  | some found => rfl
  | none =>
    dsimp only
    split
    · rfl
    · rcases hmet : met r.parent with e | _ | c
      · rfl
      · rfl
      · dsimp only
        by_cases hagain : r.parent ∈ r.id :: visited
        · -- Nothing is looked at when an id is met again, however many steps are left.
          have hcontains : (r.id :: visited).contains c.record.id = true :=
            List.contains_iff_mem.mpr (hnamed _ c hmet ▸ hagain)
          rw [if_pos hagain]
          cases fuel with
          | zero => rfl
          | succ fuel => rw [ascend, if_pos hcontains]
        · rw [if_neg hagain]

/-- Induction on the chain; its ids are all new. -/
theorem ascend_along {α : Type} (probe : Record → Option α) (hnamed : Named met)
    (h : Chain met visited r chain cut) (hpassed : Passed met visited r) {fuel : Nat}
    (hfuel : chain.length ≤ fuel) : ascend met probe fuel visited r = along probe chain cut := by
  have hnew {visited : List ObjectId} {r : Record} (h : Passed met visited r) : r.id ∉ visited :=
    (List.nodup_cons.mp h.nodup).1
  induction h generalizing fuel with
  | top habove =>
    obtain _ | fuel := fuel
    · cases hfuel
    · rw [ascend_above hnamed fuel (hnew hpassed), habove, along_cons]
      rfl
  | broken habove =>
    obtain _ | fuel := fuel
    · cases hfuel
    · rw [ascend_above hnamed fuel (hnew hpassed), habove, along_cons]
      rfl
  | next habove _ ih =>
    obtain _ | fuel := fuel
    · cases hfuel
    · rw [ascend_above hnamed fuel (hnew hpassed), habove, along_cons]
      dsimp only
      rw [ih (hpassed.next hnamed habove) (Nat.le_of_succ_le_succ hfuel)]

end

namespace World

variable {w : World}

/-! ## The chains of a world -/

theorem met_named (hw : w.Coherent) : Named w.met := fun _ _ => met_id hw

/-- Only what is resident or stored can be loaded. -/
theorem met_bounded (hw : w.Coherent) :
    AtMost (w.store.size + w.session.resident.length) w.met := by
  intro ids hnodup hmet
  refine seen_bounded hw ids hnodup fun id hid => ?_
  obtain ⟨c, hc⟩ := hmet id hid
  rw [seen_of_met hc]
  exact nofun

theorem has_chain (hw : w.Coherent) (r : Record) : ∃ chain cut, Chain w.met [] r chain cut :=
  exists_chain (met_bounded hw) (met_named hw) (Nat.lt_succ_self _) (.start r)

/-- Following parents as far as a lookup may goes along the whole chain, which is no longer than
that. -/
theorem ascend_reach {α : Type} (hw : w.Coherent) {r : Record} {chain : List Record}
    {cut : Option StoreError} (hchain : Chain w.met [] r chain cut) (probe : Record → Option α) :
    ascend w.met probe (reach w) [] r = along probe chain cut := by
  have hlength := hchain.length_le (met_bounded hw) (met_named hw) (.start _)
  have hreach : chain.length ≤ reach w := by
    rw [List.length_nil] at hlength
    rw [reach]
    omega
  exact ascend_along probe (met_named hw) hchain (.start _) hreach

/-- A lookup goes along the whole chain, if it has to. -/
theorem resolve_along {α : Type} (hw : w.Coherent) {h : Handle} {chain : List Record}
    {cut : Option StoreError} (hchain : Chain w.met [] (w.session.copyOf h).record chain cut)
    (probe : Record → Option α) : ∃ w', (resolve h probe).run w =
      ((along probe chain cut).mapError RuntimeError.persistence, w') ∧ Browsed w w' := by
  obtain ⟨w', hrun, hbrowsed⟩ := resolve_browses hw h probe
  rw [ascend_reach hw hchain] at hrun
  exact ⟨w', hrun, hbrowsed⟩

end World

end Lineage
