/-
  Lineage.Proofs.World.ChainChanges

  What becomes of lookups when one record changes.

  When one object is met as another record with the same parent (`Replaces`), a chain
  afterwards is the chain from before with the new record in place of the old one
  (`Replaces.onChain`).  So a change of one copy (`World.Swapped`) shows only in lookups that
  come to that copy before they find anything (`World.Meets`): they come to what the new
  record has, or else to what lies above it (`World.Swapped.asked_meets`), and all others
  come to what they came to (`World.Swapped.asked_misses`).
-/
import Lineage.Proofs.World.Chains

namespace Lineage

/-! ## Chains with another record -/

section

variable {met : ObjectId → Except StoreError (Option Copy)} {visited : List ObjectId} {r : Record}
  {chain : List Record} {cut : Option StoreError}

/-- A record in place of those with its id. -/
def Record.inPlace (new r : Record) : Record :=
  if r.id = new.id then new else r

theorem Record.inPlace_of_eq {new r : Record} (heq : r.id = new.id) : new.inPlace r = new :=
  if_pos heq

theorem Record.inPlace_of_ne {new r : Record} (hne : r.id ≠ new.id) : new.inPlace r = r :=
  if_neg hne

theorem Record.map_inPlace {new : Record} {rs : List Record} (hne : ∀ r ∈ rs, r.id ≠ new.id) :
    rs.map new.inPlace = rs :=
  List.map_congr_left (fun r hr => Record.inPlace_of_ne (hne r hr)) |>.trans (List.map_id _)

/-- One object is met as another record, with the same parent. -/
structure Replaces (met met' : ObjectId → Except StoreError (Option Copy)) (old new : Record) :
    Prop where
  id : new.id = old.id
  parent : new.parent = old.parent
  was : ∃ c, met old.id = .ok (some c) ∧ c.record = old
  is : ∃ c, met' old.id = .ok (some c) ∧ c.record = new
  others : ∀ id, id ≠ old.id → met' id = met id

namespace Replaces

variable {met' : ObjectId → Except StoreError (Option Copy)} {old new : Record}

theorem above (h : Replaces met met' old new) (hnamed : Named met) {r' : Record}
    (hparent : r'.parent = r.parent) :
    above met' visited r' = (above met visited r).map (Option.map new.inPlace) := by
  unfold Lineage.above
  rw [hparent]
  by_cases hnothing : r.parent = .nothing
  · rw [if_pos hnothing, if_pos hnothing]
    rfl
  · rw [if_neg hnothing, if_neg hnothing]
    -- Only where the parent is the object in question another record is met.
    by_cases hreplaced : r.parent = old.id
    · obtain ⟨c, hc, hold⟩ := h.was
      obtain ⟨c', hc', hnew⟩ := h.is
      rw [hreplaced, hc, hc']
      dsimp only
      rw [hold, hnew]
      split
      · rfl
      · simp only [Except.map, Option.map, Record.inPlace_of_eq h.id.symm]
    · rw [h.others _ hreplaced]
      rcases hmet : met r.parent with e | _ | c
      · rfl
      · rfl
      · dsimp only
        split
        · rfl
        · have hother : c.record.id ≠ new.id := by
            rw [hnamed _ c hmet, h.id]
            exact hreplaced
          simp only [Except.map, Option.map, Record.inPlace_of_ne hother]

/-- The new record stands on a chain where the old one stood.  Induction on the chain; the first
record may be another too, as long as its id and its parent are the same. -/
theorem onChain (h : Replaces met met' old new) (hnamed : Named met)
    (hchain : Chain met visited r chain cut) {r' : Record} (hid : r'.id = r.id)
    (hparent : r'.parent = r.parent) :
    Chain met' visited r' (r' :: chain.tail.map new.inPlace) cut := by
  induction hchain generalizing r' with
  | top habove =>
    refine .top ?_
    rw [h.above hnamed hparent, hid, habove]
    rfl
  | broken habove =>
    refine .broken ?_
    rw [h.above hnamed hparent, hid, habove]
    rfl
  | @next visited r parent chain cut habove rest ih =>
    obtain ⟨tail, rfl⟩ := rest.head
    obtain ⟨c, hmet, rfl, -⟩ := above_some habove
    -- The parent is replaced if it is the object in question, which was met as the old record.
    have hsame : (new.inPlace c.record).id = c.record.id ∧
        (new.inPlace c.record).parent = c.record.parent := by
      rw [Record.inPlace]
      split
      · rename_i heq
        obtain ⟨c₀, hc₀, hold⟩ := h.was
        have hat : r.parent = old.id := by rw [← hnamed _ c hmet, heq, h.id]
        rw [hat, hc₀] at hmet
        cases hmet
        rw [hold]
        exact ⟨h.id, h.parent⟩
      · exact ⟨rfl, rfl⟩
    have habove' :
        Lineage.above met' (r'.id :: visited) r' = .ok (some (new.inPlace c.record)) := by
      rw [h.above hnamed hparent, hid, habove]
      rfl
    have hrest := ih hsame.1 hsame.2
    rw [← hid] at hrest
    exact .next habove' hrest

end Replaces

end

/-! ## Looking along another chain -/

section

variable {α : Type} {probe : Record → Option α} {before : List Record} {cut : Option StoreError}

theorem along_past (hbefore : ∀ b ∈ before, probe b = none) (rest : List Record) :
    along probe (before ++ rest) cut = along probe rest cut := by
  induction before with
  | nil => rfl
  | cons b before ih =>
    rw [List.cons_append, along_cons, hbefore b List.mem_cons_self]
    exact ih fun b hb => hbefore b (List.mem_cons_of_mem _ hb)

/-- What lies behind a record that decides does not matter. -/
theorem along_decided (hfound : ∃ b ∈ before, probe b ≠ none) (rest rest' : List Record) :
    along probe (before ++ rest) cut = along probe (before ++ rest') cut := by
  induction before with
  | nil =>
    obtain ⟨b, hb, -⟩ := hfound
    cases hb
  | cons b before ih =>
    rw [List.cons_append, List.cons_append, along_cons, along_cons]
    cases hprobe : probe b with
    | some a => rfl
    | none =>
      obtain ⟨b', hb', hfound⟩ := hfound
      rcases List.mem_cons.mp hb' with rfl | hb'
      · exact absurd hprobe hfound
      · exact ih ⟨b', hb', hfound⟩

theorem along_map {f : Record → Record} {chain : List Record}
    (hf : ∀ q ∈ chain, probe (f q) = probe q) :
    along probe (chain.map f) cut = along probe chain cut := by
  induction chain with
  | nil => rfl
  | cons q chain ih =>
    rw [List.map_cons, along_cons, along_cons, hf q List.mem_cons_self,
      ih fun q hq => hf q (List.mem_cons_of_mem _ hq)]

end

namespace World

variable {w w' : World} {h : Handle}

/-! ## What a lookup is made on -/

/-- What something is looked up on: a copy that a handle names, or an object that is loaded. -/
inductive Subject where
  | handle (g : Handle)
  | object (id : ObjectId)

namespace Subject

variable {α : Type}

/-- Look something up; nothing is found on an object that is not there. -/
def asked (look : Handle → Action (Option α)) : Subject → Action (Option α)
  | handle g => look g
  | object id => do
    match ← loadWith true id with
    | some g => look g
    | none => return none

/-- The record that a lookup starts from. -/
def start (w : World) : Subject → Except StoreError (Option Record)
  | handle g => .ok (some (w.session.copyOf g).record)
  | object id => (w.met id).map (Option.map Copy.record)

/-- A subject is not another copy of the object that a handle names a copy of. -/
def Current (w : World) (h : Handle) (y : Subject) : Prop :=
  ∀ g, y = handle g → (w.session.copyOf g).record.id = (w.session.copyOf h).record.id → g = h

/-- A lookup goes along the chain of the record that it starts from. -/
theorem asked_along (hw : w.Coherent) {y : Subject} {r : Record} (hstart : y.start w = .ok (some r))
    {chain : List Record} {cut : Option StoreError} (hchain : Chain w.met [] r chain cut)
    (probe : Record → Option α) :
    ((y.asked (resolve · probe)).run w).1 =
      (along probe chain cut).mapError RuntimeError.persistence := by
  cases y with
  | handle g =>
    cases hstart
    obtain ⟨w₁, hrun, -⟩ := resolve_along hw hchain probe
    exact congrArg Prod.fst hrun
  | object id =>
    obtain ⟨result, w₁, hload, hbrowsed, hgives⟩ := loadWith_browses hw true id
    have hmet : (w.met id).map (Option.map Copy.record) = .ok (some r) := hstart
    generalize hfound : w.met id = met at hmet hgives
    rw [asked, run_bind, hload]
    cases hgives with
    | failed e => cases hmet
    | missing => cases hmet
    | recycled hskip => simp at hskip
    | @found c _ g hat =>
      cases hmet
      have hcopy : w₁.session.copyOf g = c := hbrowsed.copy_met hat hfound
      rw [← hbrowsed.met, ← hcopy] at hchain
      obtain ⟨w₂, hrun, -⟩ := resolve_along hbrowsed.coherent hchain probe
      exact congrArg Prod.fst hrun

/-- Without a record to start from a lookup comes to what loading the object came to. -/
theorem asked_nowhere (hw : w.Coherent) {y : Subject} (hstart : ∀ r, y.start w ≠ .ok (some r))
    (probe : Record → Option α) : ((y.asked (resolve · probe)).run w).1 =
      match y.start w with
      | .error e => .error (.persistence e)
      | .ok _ => .ok none := by
  cases y with
  | handle g => exact absurd rfl (hstart _)
  | object id =>
    obtain ⟨result, w₁, hload, -, hgives⟩ := loadWith_browses hw true id
    have hmet : ∀ r, (w.met id).map (Option.map Copy.record) ≠ .ok (some r) := hstart
    rw [start, asked, run_bind, hload]
    generalize w.met id = met at hmet hgives
    cases hgives with
    | failed e => rfl
    | missing => rfl
    | recycled hskip => simp at hskip
    | found _ _ => exact absurd rfl (hmet _)

end Subject

/-! ## Lookups after a change -/

/-- Between two worlds the record of one copy has become another, which the object is met as. -/
structure Swapped (w w' : World) (h : Handle) : Prop where
  before : w.Coherent
  after : w'.Coherent
  replaces : Replaces w.met w'.met (w.session.copyOf h).record (w'.session.copyOf h).record
  others : ∀ g, g ≠ h → w'.session.copyOf g = w.session.copyOf g

/-- From a subject following parents comes to the copy that a handle names, and comes to it before
any other record in which `probe` finds something. -/
structure Meets {α : Type} (w : World) (h : Handle) (y : Subject) (probe : Record → Option α)
    (after : List Record) (cut : Option StoreError) : Prop where
  current : y.Current w h
  passes : ∃ start before, y.start w = .ok (some start) ∧
    Chain w.met [] start (before ++ (w.session.copyOf h).record :: after) cut ∧
    ∀ b ∈ before, probe b = none

namespace Swapped

variable {α : Type} {y : Subject} {probe : Record → Option α}

theorem start_current (hs : Swapped w w' h) (hy : y.Current w h) :
    y.start w' = (y.start w).map (Option.map (w'.session.copyOf h).record.inPlace) := by
  cases y with
  | handle g =>
    show Except.ok (some _) = Except.ok (some _)
    by_cases hg : g = h
    · rw [hg, Record.inPlace_of_eq hs.replaces.id.symm]
    · have hne : (w.session.copyOf g).record.id ≠ (w'.session.copyOf h).record.id := by
        rw [hs.replaces.id]
        exact fun heq => hg (hy g rfl heq)
      rw [hs.others g hg, Record.inPlace_of_ne hne]
  | object id =>
    show (w'.met id).map _ = ((w.met id).map _).map _
    by_cases hid : id = (w.session.copyOf h).record.id
    · obtain ⟨c, hc, hwas⟩ := hs.replaces.was
      obtain ⟨c', hc', his⟩ := hs.replaces.is
      rw [hid, hc, hc']
      simp only [Except.map, Option.map, hwas, his, Record.inPlace_of_eq hs.replaces.id.symm]
    · rw [hs.replaces.others id hid]
      rcases hmet : w.met id with e | _ | c
      · rfl
      · rfl
      · have hne : c.record.id ≠ (w'.session.copyOf h).record.id := by
          rw [met_id hs.before hmet, hs.replaces.id]
          exact hid
        simp only [Except.map, Option.map, Record.inPlace_of_ne hne]

theorem start_outdated (hs : Swapped w w' h) (hy : ¬y.Current w h) :
    ∃ g, y = .handle g ∧ (w.session.copyOf g).record.id = (w.session.copyOf h).record.id ∧
      y.start w' = .ok (some (w.session.copyOf g).record) := by
  simp only [Subject.Current, not_forall] at hy
  obtain ⟨g, rfl, hid, hg⟩ := hy
  refine ⟨g, rfl, hid, ?_⟩
  rw [Subject.start, hs.others g hg]

/-- On the chain of a current subject the object is met as the copy. -/
theorem eq_of_mem (hs : Swapped w w' h) (hy : y.Current w h) {r : Record}
    (hstart : y.start w = .ok (some r)) {chain : List Record} {cut : Option StoreError}
    (hchain : Chain w.met [] r chain cut) {q : Record} (hq : q ∈ chain)
    (hid : q.id = (w.session.copyOf h).record.id) : q = (w.session.copyOf h).record := by
  obtain ⟨c₀, hc₀, hwas⟩ := hs.replaces.was
  have hmet {c : Copy} (hc : w.met q.id = .ok (some c)) :
      c.record = (w.session.copyOf h).record := by
    rw [hid, hc₀] at hc
    cases hc
    exact hwas
  rcases hchain.loaded (met_named hs.before) hq with rfl | ⟨c, hc, rfl⟩
  · cases y with
    | handle g =>
      cases hstart
      rw [hy g rfl hid]
    | object id =>
      have hstart : (w.met id).map (Option.map Copy.record) = .ok (some q) := hstart
      rcases hfound : w.met id with e | _ | c
      · rw [hfound] at hstart; cases hstart
      · rw [hfound] at hstart; cases hstart
      · rw [hfound] at hstart
        cases hstart
        exact hmet (by rw [met_id hs.before hfound, hfound])
  · exact hmet hc

/-- A lookup after the change goes along the chain from before, with the new record on it. -/
theorem asked_current (hs : Swapped w w' h) (hy : y.Current w h) {r : Record}
    (hstart : y.start w = .ok (some r)) {chain : List Record} {cut : Option StoreError}
    (hchain : Chain w.met [] r chain cut) (probe : Record → Option α) :
    ((y.asked (resolve · probe)).run w').1 =
      (along probe (chain.map (w'.session.copyOf h).record.inPlace) cut).mapError
        RuntimeError.persistence := by
  let new := (w'.session.copyOf h).record
  obtain ⟨tail, rfl⟩ := hchain.head
  have hstart' : y.start w' = .ok (some (new.inPlace r)) := by
    rw [hs.start_current hy, hstart]
    rfl
  have hsame : (new.inPlace r).id = r.id ∧ (new.inPlace r).parent = r.parent := by
    by_cases hid : r.id = new.id
    · have hold := hs.eq_of_mem hy hstart hchain List.mem_cons_self (hid.trans hs.replaces.id)
      rw [Record.inPlace_of_eq hid, hold]
      exact ⟨hs.replaces.id, hs.replaces.parent⟩
    · rw [Record.inPlace_of_ne hid]
      exact ⟨rfl, rfl⟩
  have hchain' := hs.replaces.onChain (met_named hs.before) hchain hsame.1 hsame.2
  exact y.asked_along hs.after hstart' hchain' probe

/-- Another copy of the same object is not changed, and on its chain the object is not met again. -/
theorem asked_outdated (hs : Swapped w w' h) (hy : ¬y.Current w h) (probe : Record → Option α) :
    ((y.asked (resolve · probe)).run w').1 = ((y.asked (resolve · probe)).run w).1 := by
  obtain ⟨g, rfl, hid, hstart'⟩ := hs.start_outdated hy
  obtain ⟨chain, cut, hchain⟩ := has_chain hs.before (w.session.copyOf g).record
  obtain ⟨tail, rfl⟩ := hchain.head
  -- The id stands at the head of the chain already, so the new record does not come into it.
  have hnodup := hchain.nodup (met_named hs.before) (.start _)
  rw [List.append_nil, List.map_cons, List.nodup_cons] at hnodup
  have htail : tail.map (w'.session.copyOf h).record.inPlace = tail := by
    refine Record.map_inPlace fun q hq heq => hnodup.1 ?_
    rw [hid, ← hs.replaces.id, ← heq]
    exact List.mem_map_of_mem hq
  have hchain' := hs.replaces.onChain (met_named hs.before) hchain
    (Eq.refl (w.session.copyOf g).record.id) rfl
  rw [List.tail_cons, htail] at hchain'
  rw [Subject.asked_along hs.after hstart' hchain' probe,
    Subject.asked_along hs.before rfl hchain probe]

/-- Without a chain from before there is none after the change. -/
theorem asked_nowhere (hs : Swapped w w' h) (hy : y.Current w h)
    (hstart : ∀ r, y.start w ≠ .ok (some r)) (probe : Record → Option α) :
    ((y.asked (resolve · probe)).run w').1 = ((y.asked (resolve · probe)).run w).1 := by
  have hstart' : ∀ r, y.start w' ≠ .ok (some r) := by
    intro r
    rw [hs.start_current hy]
    rcases hfound : y.start w with e | _ | q
    · exact nofun
    · exact nofun
    · exact absurd hfound (hstart q)
  rw [Subject.asked_nowhere hs.after hstart', Subject.asked_nowhere hs.before hstart,
    hs.start_current hy]
  cases y.start w <;> rfl

/-- A lookup that makes no difference between the old record and the new one. -/
theorem asked_same (hs : Swapped w w' h)
    (hprobe : probe (w'.session.copyOf h).record = probe (w.session.copyOf h).record) :
    ((y.asked (resolve · probe)).run w').1 = ((y.asked (resolve · probe)).run w).1 := by
  by_cases hy : y.Current w h
  · by_cases hstart : ∃ r, y.start w = .ok (some r)
    · obtain ⟨r, hstart⟩ := hstart
      obtain ⟨chain, cut, hchain⟩ := has_chain hs.before r
      rw [hs.asked_current hy hstart hchain, Subject.asked_along hs.before hstart hchain]
      refine congrArg _ (along_map fun q hq => ?_)
      by_cases hid : q.id = (w'.session.copyOf h).record.id
      · rw [Record.inPlace_of_eq hid, hprobe,
          hs.eq_of_mem hy hstart hchain hq (hid.trans hs.replaces.id)]
      · rw [Record.inPlace_of_ne hid]
    · exact hs.asked_nowhere hy (fun r hr => hstart ⟨r, hr⟩) probe
  · exact hs.asked_outdated hy probe

/-- On a chain the new record takes the place of the old one alone. -/
theorem map_split (hs : Swapped w w' h) {r : Record} {before after : List Record}
    {cut : Option StoreError}
    (hchain : Chain w.met [] r (before ++ (w.session.copyOf h).record :: after) cut) :
    (before ++ (w.session.copyOf h).record :: after).map (w'.session.copyOf h).record.inPlace =
      before ++ (w'.session.copyOf h).record :: after := by
  have hnodup := hchain.nodup (met_named hs.before) (.start _)
  rw [List.append_nil, List.map_append, List.map_cons, List.nodup_middle, List.nodup_cons,
    ← List.map_append] at hnodup
  -- No id stands twice on a chain, so neither part of it has the id of the copy.
  have hothers : ∀ q ∈ before ++ after, q.id ≠ (w'.session.copyOf h).record.id := by
    intro q hq heq
    apply hnodup.1
    rw [← hs.replaces.id, ← heq]
    exact List.mem_map_of_mem hq
  rw [List.map_append, List.map_cons, Record.inPlace_of_eq hs.replaces.id.symm,
    Record.map_inPlace fun q hq => hothers q (List.mem_append_left _ hq),
    Record.map_inPlace fun q hq => hothers q (List.mem_append_right _ hq)]

/-- A lookup that meets the copy first comes to what the new record has, or else to what lies above
it. -/
theorem asked_meets (hs : Swapped w w' h) {after : List Record} {cut : Option StoreError}
    (hmeets : w.Meets h y probe after cut) : ((y.asked (resolve · probe)).run w').1 =
      (along probe ((w'.session.copyOf h).record :: after) cut).mapError
        RuntimeError.persistence := by
  obtain ⟨r, before, hstart, hchain, hbefore⟩ := hmeets.passes
  rw [hs.asked_current hmeets.current hstart hchain, hs.map_split hchain, along_past hbefore]

/-- A lookup that does not meet the copy, or only behind what it finds. -/
theorem asked_misses (hs : Swapped w w' h) (hmisses : ∀ after cut, ¬w.Meets h y probe after cut) :
    ((y.asked (resolve · probe)).run w').1 = ((y.asked (resolve · probe)).run w).1 := by
  by_cases hy : y.Current w h
  · by_cases hstart : ∃ r, y.start w = .ok (some r)
    · obtain ⟨r, hstart⟩ := hstart
      obtain ⟨chain, cut, hchain⟩ := has_chain hs.before r
      rw [hs.asked_current hy hstart hchain, Subject.asked_along hs.before hstart hchain]
      by_cases hmem : (w.session.copyOf h).record ∈ chain
      · -- The chain does come to the copy, but another record before it decides.
        obtain ⟨before, after, rfl⟩ := List.append_of_mem hmem
        have hfound : ∃ b ∈ before, probe b ≠ none := by
          by_contra hnone
          refine hmisses after cut ⟨hy, r, before, hstart, hchain, fun b hb => ?_⟩
          by_contra hb'
          exact hnone ⟨b, hb, hb'⟩
        rw [hs.map_split hchain, along_decided hfound]
      · have hchain' : chain.map (w'.session.copyOf h).record.inPlace = chain := by
          refine Record.map_inPlace fun q hq hid => hmem ?_
          rw [← hs.eq_of_mem hy hstart hchain hq (hid.trans hs.replaces.id)]
          exact hq
        rw [hchain']
    · exact hs.asked_nowhere hy (fun r hr => hstart ⟨r, hr⟩) probe
  · exact hs.asked_outdated hy probe

end Swapped

end World

end Lineage
