/-
  Lineage.Proofs.World.Ledger

  What should become of a record that is changed through a handle, and of what is stored
  of it.

  A ledger has the handle's record, the paths changed in it since it was last sent to the
  store or read from it, the writes that wait, and what can be read of what is stored.  It
  knows nothing of marks and updates: a write brings the changed paths to what is kept of
  what the record has there, and no others (`Written`).  Each event is one step of the
  ledger (`Ledger.Step`), whatever values are set.

  Without edits from outside and failed background writes, what is stored is what is kept
  of the record but for the changed paths once the waiting writes have been applied
  (`Ledger.Settled.step`).
-/
import Lineage.Proofs.Store.Deposits
import Lineage.World.Changes

namespace Lineage

/-- A write on its way: the changed paths, and the record as it was then. -/
structure Patch where
  changed : Path → Prop
  source : Record

/-- Writes are applied one after the other.  Nothing can be written without a connection, or into
what is not stored. -/
inductive Patch.Applied (durable connected : Bool) :
    List Patch → Option Deposit → Option Deposit → Prop
  | nil (s : Option Deposit) : Applied durable connected [] s s
  | lands {p : Patch} {rest : List Patch} {old new : Deposit} {s : Option Deposit}
      (hconnected : connected = true) (hwritten : Written durable p.changed p.source old new)
      (hrest : Applied durable connected rest (some new) s) :
      Applied durable connected (p :: rest) (some old) s
  | fails {p : Patch} {rest : List Patch} {old s : Option Deposit}
      (hfails : connected = false ∨ old = none) (hrest : Applied durable connected rest old s) :
      Applied durable connected (p :: rest) old s

structure Ledger where
  /-- The handle's record. -/
  mine : Record
  /-- The paths changed through the handle since the last save that succeeded, was left waiting, or
  since the last refresh, whichever is latest. -/
  changed : Path → Prop
  waiting : List Patch
  stored : Option Deposit
  /-- Whether what is written is kept as text. -/
  durable : Bool
  connected : Bool
  /-- Whether writes are still taken. -/
  writing : Bool
  /-- Whether what is stored has been edited from outside, or a background write has failed. -/
  disturbed : Prop

namespace Ledger

/-- What can happen, and what it comes to. -/
inductive Event where
  | setProperty (name : String) (v : Value)
  | removeProperty (name : String) (was : Bool)
  | setMethod (name : String) (m : MethodDef)
  | removeMethod (name : String) (was : Bool)
  | setParent (parent : ObjectId) (result : Except RuntimeError Unit)
  | save (result : Except RuntimeError Bool)
  | saveLater
  | refresh (result : Except RuntimeError Unit)
  /-- The oldest of the waiting writes is applied. -/
  | write
  /-- Anything else: what is stored is edited, the connection is made or lost, time passes. -/
  | outside

/-- Whether a write would succeed. -/
def Open (L : Ledger) : Prop := L.connected = true ∧ L.stored.isSome = true

/-- A path of the record is changed. -/
def edited (L : Ledger) (p : Path) (r : Record) : Ledger :=
  { L with mine := r, changed := fun q => q = p ∨ L.changed q }

/-- The changed paths are on their way. -/
def sent (L : Ledger) (now : Timestamp) : Ledger :=
  { L with mine := { L.mine with modified := now }, changed := fun _ => False }

/-- Nothing waits any more. -/
def drained (L : Ledger) (stored : Option Deposit) : Ledger :=
  { L with waiting := [], stored, disturbed := L.disturbed ∨ (L.waiting ≠ [] ∧ ¬ L.Open) }

/-- The waiting writes are applied. -/
def Settles (L L' : Ledger) : Prop :=
  ∃ stored, Patch.Applied L.durable L.connected L.waiting L.stored stored ∧ L' = L.drained stored

/-- The changed paths are written after what waits.  If that fails they stay as they are. -/
inductive Saves (L : Ledger) : Except RuntimeError Bool → Ledger → Prop
  | clean (hclean : ∀ p, ¬ L.changed p) : Saves L (.ok false) L
  | written {L' : Ledger} {old new : Deposit} (now : Timestamp) (hchanged : ∃ p, L.changed p)
      (hwriting : L.writing = true) (hsettles : L.Settles L') (hconnected : L.connected = true)
      (hold : L'.stored = some old)
      (hwritten : Written L.durable L.changed (L.sent now).mine old new) :
      Saves L (.ok true) { L'.sent now with stored := some new }
  | failed {L' : Ledger} (now : Timestamp) (hchanged : ∃ p, L.changed p) (e : StoreError)
      (hfails : (L.writing = true ∧ L.Settles L' ∧ ¬ L'.Open) ∨ (L.writing = false ∧ L' = L)) :
      Saves L (.error (.persistence e)) { L' with mine := (L.sent now).mine }

namespace Settles

variable {L L' : Ledger}

theorem mine (h : L.Settles L') : L'.mine = L.mine := by
  obtain ⟨stored, -, rfl⟩ := h
  rfl

theorem changed (h : L.Settles L') : L'.changed = L.changed := by
  obtain ⟨stored, -, rfl⟩ := h
  rfl

theorem connected (h : L.Settles L') : L'.connected = L.connected := by
  obtain ⟨stored, -, rfl⟩ := h
  rfl

end Settles

/-- Other objects are looked at, for which the waiting writes may have to be applied. -/
def Looks (L L' : Ledger) : Prop := L' = L ∨ L.Settles L'

theorem Looks.mine {L L' : Ledger} (h : L.Looks L') : L'.mine = L.mine := by
  rcases h with rfl | hsettles
  · rfl
  · exact hsettles.mine

/-- What should happen in each event. -/
inductive Step (L : Ledger) : Event → Ledger → Prop
  | setProperty (name : String) (v : Value) : Step L (.setProperty name v)
      (L.edited (.property name) { L.mine with properties := L.mine.properties.put name v })
  | removeProperty {name : String} (hhas : L.mine.properties.has name = true) :
      Step L (.removeProperty name true)
        (L.edited (.property name) { L.mine with properties := L.mine.properties.remove name })
  | noProperty {name : String} (hhas : L.mine.properties.has name = false) :
      Step L (.removeProperty name false) L
  | setMethod (name : String) (m : MethodDef) : Step L (.setMethod name m)
      (L.edited (.method name) { L.mine with methods := L.mine.methods.put name m })
  | removeMethod {name : String} (hhas : L.mine.methods.has name = true) :
      Step L (.removeMethod name true)
        (L.edited (.method name) { L.mine with methods := L.mine.methods.remove name })
  | noMethod {name : String} (hhas : L.mine.methods.has name = false) :
      Step L (.removeMethod name false) L
  | setParent {L₁ L₂ : Ledger} {parent : ObjectId} {result : Except RuntimeError Bool}
      (hlooks : L.Looks L₁) (hsaves : (L₁.edited .header { L.mine with parent }).Saves result L₂) :
      Step L (.setParent parent (result.map fun _ => ())) L₂
  | keepParent {L₁ : Ledger} {parent : ObjectId} (e : RuntimeError) (hlooks : L.Looks L₁) :
      Step L (.setParent parent (.error e)) L₁
  | save {L' : Ledger} {result : Except RuntimeError Bool} (hsaves : L.Saves result L') :
      Step L (.save result) L'
  | sendNothing (hclean : ∀ p, ¬ L.changed p) : Step L .saveLater L
  | send (now : Timestamp) (hchanged : ∃ p, L.changed p) (hwriting : L.writing = true) :
      Step L .saveLater { L.sent now with waiting := L.waiting ++ [⟨L.changed, (L.sent now).mine⟩] }
  | drop (now : Timestamp) (hchanged : ∃ p, L.changed p) (hwriting : L.writing = false) :
      Step L .saveLater { L.sent now with disturbed := True }
  | refresh {L' : Ledger} {d : Deposit} {r : Record} (hsettles : L.Settles L')
      (hconnected : L.connected = true) (hd : L'.stored = some d) (hr : d.Reads r) :
      Step L (.refresh (.ok ())) { L' with mine := r, changed := fun _ => False }
  | keepAll {L' : Ledger} (e : RuntimeError) (hsettles : L.Settles L')
      (hfails : L.connected = true → ∀ d, L'.stored = some d → ∃ p, d.part p = none) :
      Step L (.refresh (.error e)) L'
  | noWrite (hwaiting : L.waiting = []) : Step L .write L
  | write {p : Patch} {rest : List Patch} {stored : Option Deposit} (hwaiting : L.waiting = p :: rest)
      (happlied : Patch.Applied L.durable L.connected [p] L.stored stored) :
      Step L .write { L with waiting := rest, stored, disturbed := L.disturbed ∨ ¬ L.Open }
  | outside (stored : Option Deposit) (connected writing : Bool) : Step L .outside { L with
      stored, connected, writing, disturbed := L.disturbed ∨ stored ≠ L.stored }

/-! ## What is stored in the end -/

/-- Writes all of which succeed lead from one thing stored to another. -/
inductive Leads (durable : Bool) : List Patch → Deposit → Deposit → Prop
  | nil (d : Deposit) : Leads durable [] d d
  | cons {p : Patch} {rest : List Patch} {d d' e : Deposit}
      (hp : Written durable p.changed p.source d d') (hrest : Leads durable rest d' e) :
      Leads durable (p :: rest) d e

theorem Leads.unsnoc {durable : Bool} {ps : List Patch} {p : Patch} {d e : Deposit}
    (h : Leads durable (ps ++ [p]) d e) :
    ∃ d', Leads durable ps d d' ∧ Written durable p.changed p.source d' e := by
  induction ps generalizing d with
  | nil =>
    obtain _ | ⟨hp, hrest⟩ := h
    cases hrest
    exact ⟨d, .nil d, hp⟩
  | cons q ps ih =>
    obtain _ | ⟨hq, hrest⟩ := h
    obtain ⟨d', hd', hp⟩ := ih hrest
    exact ⟨d', .cons hq hd', hp⟩

/-- What is stored is a record but for the changed paths, and as a whole if there are none.  At a path
it is either what the record has there, or what is kept of it. -/
structure But (durable : Bool) (changed : Path → Prop) (r : Record) (d : Deposit) : Prop where
  id : d.id = r.id
  created : d.created = r.created
  modified : (∀ p, ¬ changed p) → d.modified = r.modified
  part : ∀ p, ¬ changed p →
    d.part p = some (r.content p) ∨ d.part p = (r.content p).kept durable

namespace But

variable {durable : Bool} {changed : Path → Prop} {r : Record} {d : Deposit}

/-- What has been read. -/
theorem of_reads (h : d.Reads r) (durable : Bool) (changed : Path → Prop) : But durable changed r d :=
  ⟨h.id, h.created, fun _ => h.modified, fun p _ => .inl (h.part p)⟩

/-- What survives is read as it is. -/
theorem reads (h : But durable (fun _ => False) r d)
    (hsurvives : durable = true → ∀ e ∈ r.properties.entries, e.2.Survives) : d.Reads r where
  id := h.id
  created := h.created
  modified := h.modified fun _ => not_false
  part p := by
    rcases h.part p not_false with hsame | hkept
    · exact hsame
    · exact hkept.trans (r.kept_content hsurvives p)

/-- After the changed paths have been written, nothing is different. -/
theorem written {old new : Deposit} {now : Timestamp} (h : But durable changed r old)
    (hwritten : Written durable changed { r with modified := now } old new) :
    But durable (fun _ => False) { r with modified := now } new where
  id := hwritten.id.trans h.id
  created := hwritten.created.trans h.created
  modified _ := hwritten.modified
  part p _ := by
    by_cases hp : changed p
    · exact .inr (hwritten.there p hp)
    · rw [hwritten.elsewhere p hp]
      exact h.part p hp

/-- A record of which a path is changed. -/
theorem edited {r' : Record} {p : Path} (h : But durable changed r d) (hid : r'.id = r.id)
    (hcreated : r'.created = r.created) (hcontent : ∀ q, q ≠ p → r'.content q = r.content q) :
    But durable (fun q => q = p ∨ changed q) r' d where
  id := h.id.trans hid.symm
  created := h.created.trans hcreated.symm
  modified hclean := absurd (.inl rfl) (hclean p)
  part q hq := by
    rw [hcontent q fun heq => hq (.inl heq)]
    exact h.part q fun hc => hq (.inr hc)

/-- A record that keeps its changed paths, of which there are some. -/
theorem unsaved (h : But durable changed r d) (hchanged : ∃ p, changed p) (now : Timestamp) :
    But durable changed { r with modified := now } d where
  id := h.id
  created := h.created
  modified hclean := absurd hchanged.choose_spec (hclean _)
  part := h.part

end But

/-- Once what waits has been written, what is stored is the record but for the changed paths. -/
def Settled (L : Ledger) : Prop :=
  ¬ L.disturbed → ∃ d, L.stored = some d ∧
    ∀ e, Leads L.durable L.waiting d e → But L.durable L.changed L.mine e

theorem applied_leads {durable connected : Bool} {ps : List Patch} {d : Deposit}
    {stored : Option Deposit} (h : Patch.Applied durable connected ps (some d) stored)
    (hconnected : connected = true) : ∃ e, stored = some e ∧ Leads durable ps d e := by
  induction ps generalizing d with
  | nil =>
    cases h
    exact ⟨d, rfl, .nil d⟩
  | cons p ps ih =>
    cases h with
    | lands _ hwritten hrest =>
      obtain ⟨e, he, hleads⟩ := ih hrest
      exact ⟨e, he, .cons hwritten hleads⟩
    | fails hfails hrest =>
      rcases hfails with hfails | hfails
      · rw [hconnected] at hfails
        cases hfails
      · cases hfails

theorem applied_nil {durable connected : Bool} {old stored : Option Deposit}
    (h : Patch.Applied durable connected [] old stored) : stored = old := by
  cases h
  rfl

namespace Settled

variable {L L' : Ledger}

/-- What is stored after the waiting writes have been applied, unless they fail. -/
theorem settles (h : L.Settled) (hsettles : L.Settles L') (hcalm : ¬ L'.disturbed) :
    ∃ d, L'.stored = some d ∧ But L.durable L.changed L.mine d := by
  obtain ⟨stored, happlied, rfl⟩ := hsettles
  obtain ⟨d, hd, hbut⟩ := h fun hdisturbed => hcalm (.inl hdisturbed)
  cases hwaiting : L.waiting with
  | nil =>
    rw [hwaiting] at happlied hbut
    exact ⟨d, (applied_nil happlied).trans hd, hbut d (.nil d)⟩
  | cons p rest =>
    have hopen : L.Open := Classical.byContradiction fun hshut =>
      hcalm (.inr ⟨by rw [hwaiting]; exact List.cons_ne_nil _ _, hshut⟩)
    rw [hd] at happlied
    obtain ⟨e, he, hleads⟩ := applied_leads happlied hopen.1
    exact ⟨e, he, hbut e hleads⟩

/-- Applying the waiting writes is what they are waiting for. -/
theorem after_settles (h : L.Settled) (hsettles : L.Settles L') : L'.Settled := by
  intro hcalm
  obtain ⟨d, hd, hbut⟩ := h.settles hsettles hcalm
  obtain ⟨stored, -, rfl⟩ := hsettles
  refine ⟨d, hd, fun e hleads => ?_⟩
  cases hleads
  exact hbut

theorem looks (h : L.Settled) (hlooks : L.Looks L') : L'.Settled := by
  rcases hlooks with rfl | hsettles
  · exact h
  · exact h.after_settles hsettles

/-- A path of the record is changed. -/
theorem edited (h : L.Settled) {p : Path} {r : Record} (hid : r.id = L.mine.id)
    (hcreated : r.created = L.mine.created)
    (hcontent : ∀ q, q ≠ p → r.content q = L.mine.content q) : (L.edited p r).Settled := by
  intro hcalm
  obtain ⟨d, hd, hbut⟩ := h hcalm
  exact ⟨d, hd, fun e hleads => (hbut e hleads).edited hid hcreated hcontent⟩

theorem saves (h : L.Settled) {result : Except RuntimeError Bool} (hsaves : L.Saves result L') :
    L'.Settled := by
  cases hsaves with
  | clean hclean => exact h
  | @written L₁ old new now hchanged hwriting hsettles hconnected hold hwritten =>
    intro hcalm
    obtain ⟨d, hd, hbut⟩ := h.settles hsettles hcalm
    obtain ⟨stored, -, rfl⟩ := hsettles
    refine ⟨new, rfl, fun e hleads => ?_⟩
    cases hleads
    obtain rfl : old = d := Option.some.inj (hold.symm.trans hd)
    exact hbut.written hwritten
  | @failed L₁ now hchanged e hfails =>
    have h₁ : L₁.Settled ∧ L₁.mine = L.mine ∧ L₁.changed = L.changed := by
      rcases hfails with ⟨-, hsettles, -⟩ | ⟨-, rfl⟩
      · exact ⟨h.after_settles hsettles, hsettles.mine, hsettles.changed⟩
      · exact ⟨h, rfl, rfl⟩
    obtain ⟨h₁, hmine, hsame⟩ := h₁
    intro hcalm
    obtain ⟨d, hd, hbut⟩ := h₁ hcalm
    rw [hmine] at hbut
    exact ⟨d, hd, fun e hleads => (hbut e hleads).unsaved (hsame ▸ hchanged) now⟩

/-- Every event leaves what is stored so. -/
theorem step (h : L.Settled) {e : Event} (hstep : L.Step e L') : L'.Settled := by
  cases hstep with
  | setProperty name v =>
    -- A setter changes one path of the record, which it marks.
    exact h.edited rfl rfl fun _ => Record.content_properties fun _ => Dict.get?_put_ne _ _
  | removeProperty hhas =>
    exact h.edited rfl rfl fun _ => Record.content_properties fun _ => Dict.get?_remove_ne _
  | setMethod name m =>
    exact h.edited rfl rfl fun _ => Record.content_methods fun _ => Dict.get?_put_ne _ _
  | removeMethod hhas =>
    exact h.edited rfl rfl fun _ => Record.content_methods fun _ => Dict.get?_remove_ne _
  | noProperty hhas | noMethod hhas | sendNothing hclean | noWrite hwaiting => exact h
  | @setParent L₁ _ parent result hlooks hsaves =>
    -- Looking along the parents changes nothing of the object itself.
    have hmine := hlooks.mine
    have hid : L.mine.id = L₁.mine.id := congrArg Record.id hmine.symm
    have hcreated : L.mine.created = L₁.mine.created := congrArg Record.created hmine.symm
    have hedited : (L₁.edited .header { L.mine with parent }).Settled := by
      refine (h.looks hlooks).edited hid hcreated fun q hq => ?_
      rw [hmine]
      cases q with
      | header => exact absurd rfl hq
      | _ => rfl
    exact hedited.saves hsaves
  | keepParent e hlooks => exact h.looks hlooks
  | save hsaves => exact h.saves hsaves
  | send now hchanged hwriting =>
    intro hcalm
    obtain ⟨d, hd, hbut⟩ := h hcalm
    refine ⟨d, hd, fun e hleads => ?_⟩
    obtain ⟨d', hd', hwritten⟩ := hleads.unsnoc
    exact (hbut d' hd').written hwritten
  | drop now hchanged hwriting => exact fun hcalm => absurd trivial hcalm
  | @refresh L₁ d r hsettles hconnected hd hr =>
    intro _
    obtain ⟨stored, -, rfl⟩ := hsettles
    refine ⟨d, hd, fun e hleads => ?_⟩
    cases hleads
    exact .of_reads hr _ _
  | keepAll e hsettles hfails => exact h.after_settles hsettles
  | @write p rest stored hwaiting happlied =>
    intro hcalm
    obtain ⟨d, hd, hbut⟩ := h fun hdisturbed => hcalm (.inl hdisturbed)
    have hopen : L.Open := Classical.byContradiction fun hshut => hcalm (.inr hshut)
    rw [hd] at happlied
    -- The first of the waiting writes is in the store now; the others lead on from there.
    obtain ⟨d', hd', hfirst⟩ := applied_leads happlied hopen.1
    refine ⟨d', hd', fun e hleads => hbut e ?_⟩
    obtain _ | ⟨hp, hnil⟩ := hfirst
    cases hnil
    rw [hwaiting]
    exact .cons hp hleads
  | outside stored connected writing =>
    intro hcalm
    obtain ⟨d, hd, hbut⟩ := h fun hdisturbed => hcalm (.inl hdisturbed)
    have hsame : stored = L.stored := Classical.byContradiction fun hne => hcalm (.inr hne)
    exact ⟨d, hsame.trans hd, hbut⟩

end Settled

end Ledger

end Lineage
