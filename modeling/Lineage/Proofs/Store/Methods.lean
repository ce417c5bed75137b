/-
  Lineage.Proofs.Store.Methods

  The methods that a store gives.

  `AllMethods G` says that every method is as `G` says: of a record, of an update, and of
  all that is stored.  In a durable store methods are texts; what a text is read as is
  what counts, and one that cannot be read is no method.  A store gives no methods but
  those that it holds, and comes to hold no others than it is given.
-/
import Lineage.Proofs.Store.Places
import Lineage.Proofs.Store.Tables
import Lineage.World.Basic

namespace Lineage

-- Eight bytes are not to be computed with.
attribute [local irreducible] ObjectId.bytes

variable {G : MethodDef → Prop}

/-- Every method of a record. -/
def Record.AllMethods (G : MethodDef → Prop) (r : Record) : Prop := ∀ e ∈ r.methods.entries, G e.2

/-- Every method that an update sets. -/
def Update.AllMethods (G : MethodDef → Prop) (u : Update) : Prop :=
  ∀ name m, (name, some m) ∈ u.methods → G m

theorem Update.AllMethods.applyTo {u : Update} {r : Record} (hu : u.AllMethods G)
    (hr : r.AllMethods G) : (u.applyTo r).AllMethods G := by
  intro e he
  rcases Update.mem_patch he with hset | hold
  · exact hu e.1 e.2 hset
  · exact hr e hold

/-- A write of changed paths sets methods that the copy has. -/
theorem Record.AllMethods.update {c : Copy} (hc : c.record.AllMethods G) (now : Timestamp) :
    (c.update now).AllMethods G := by
  intro name m hm
  obtain ⟨e, -, he⟩ := List.mem_map.mp hm
  obtain ⟨rfl, hget⟩ := Prod.mk.inj he
  exact hc (e.1, m) (Dict.mem_of_get? hget)

/-! ## Records in memory -/

namespace MemoryStore

def AllMethods (G : MethodDef → Prop) (s : MemoryStore) : Prop := ∀ e ∈ s.records, e.2.AllMethods G

variable {s : MemoryStore}

theorem AllMethods.put (hs : s.AllMethods G) (id : ObjectId) {r : Record} (hr : r.AllMethods G) :
    ∀ e ∈ s.records.put id r, e.2.AllMethods G := by
  intro e he
  rcases Dict.mem_put he with rfl | he
  · exact hr
  · exact hs e he

end MemoryStore

/-! ## Texts of methods -/

namespace DurableStore

/-- Every text of a method that can be read. -/
def AllMethods (G : MethodDef → Prop) (s : DurableStore) : Prop :=
  ∀ e ∈ s.methods, ∀ m, Json.readMethod e.2 = some m → G m

variable {s : DurableStore}

/-- What is collected of an object stands in the table. -/
theorem mem_of_owned {α : Type} {id : ObjectId} {read : Json → Option α} {t : Table}
    {d : OrderedDict String α} (h : owned id read t = .ok d) {e : String × α} (he : e ∈ d.entries) :
    ∃ entry ∈ t, (Json.read entry.2).bind read = some e.2 := by
  obtain ⟨found, rfl, hfound, -⟩ := Spreads.owned_ok h
  obtain ⟨entry, hentry, -, hread⟩ := hfound e (Dict.mem_of_mem_ofList he)
  exact ⟨entry, (List.mem_filter.mp hentry).1, hread⟩

theorem AllMethods.record (hs : s.AllMethods G) {h : Header} {r : Record} (hr : s.record h = .ok r) :
    r.AllMethods G := by
  obtain ⟨properties, methods, -, hm, rfl⟩ := record_ok hr
  intro e he
  obtain ⟨entry, hentry, hread⟩ := mem_of_owned hm he
  exact hs entry hentry e.2 hread

/-- Induction on the headers. -/
theorem AllMethods.listFrom (hs : s.AllMethods G) {recycledToo : Bool} {entries : Table}
    {records : List Record} (hlist : s.listFrom recycledToo entries = .ok records) :
    ∀ r ∈ records, r.AllMethods G := by
  induction entries generalizing records with
  | nil =>
    cases hlist
    exact nofun
  | cons e rest ih =>
    obtain ⟨key, text⟩ := e
    obtain ⟨id, h, more, -, hmore, ⟨-, rfl⟩ | ⟨-, r, hr, rfl⟩⟩ := listFrom_cons hlist
    · exact ih hmore
    · intro other hother
      rcases List.mem_cons.mp hother with rfl | hother
      · exact hs.record hr
      · exact ih hmore other hother

/-- The text that a method is written as is read as the method. -/
theorem AllMethods.writeEntries {changes : Dict String (Option MethodDef)}
    (hchanges : ∀ name m, (name, some m) ∈ changes → G m) (id : ObjectId) {t : Table}
    (ht : ∀ e ∈ t, ∀ m, Json.readMethod e.2 = some m → G m) :
    ∀ e ∈ DurableStore.writeEntries id Json.ofMethod changes t,
      ∀ m, Json.readMethod e.2 = some m → G m := by
  induction changes generalizing t with
  | nil => exact ht
  | cons change changes ih =>
    have hrest := fun name m hm => hchanges name m (List.mem_cons_of_mem _ hm)
    obtain ⟨name, _ | m⟩ := change
    · exact ih hrest fun e he => ht e (Dict.mem_remove he)
    · refine ih hrest fun e he => ?_
      rcases Dict.mem_put he with rfl | he
      · intro m' hread
        have hback : Json.readMethod (Json.ofMethod m).write = some m := Json.readMethod_writeMethod m
        rw [hback] at hread
        cases hread
        exact hchanges name m List.mem_cons_self
      · exact ht e he

end DurableStore

/-! ## Stores of either kind -/

namespace Store

/-- Every method that is stored. -/
def AllMethods (G : MethodDef → Prop) : Store → Prop
  | .memory s => s.AllMethods G
  | .durable s => s.AllMethods G

variable {s t : Store}

theorem Same.allMethods (h : Same s t) : s.AllMethods G ↔ t.AllMethods G :=
  Iff.of_eq (h.congr (f := AllMethods G) fun s => by cases s <;> rfl)

theorem AllMethods.fetched (hs : s.AllMethods G) {id : ObjectId} {r : Record}
    (h : (fetch id s).1 = .ok (some r)) : r.AllMethods G := by
  by_cases hc : s.isConnected = true
  · rw [fetch_read hc] at h
    cases s with
    | memory s => exact hs _ (Dict.mem_of_get? (Except.ok.inj h))
    | durable s =>
      obtain ⟨header, -, hr⟩ := DurableStore.read_some.mp h
      exact DurableStore.AllMethods.record hs hr
  · rw [fetch_offline (Bool.not_eq_true _ ▸ hc)] at h
    cases h

theorem AllMethods.listed (hs : s.AllMethods G) {recycledToo : Bool} {records : List Record}
    (h : (list recycledToo s).1 = .ok records) : ∀ r ∈ records, r.AllMethods G := by
  by_cases hc : s.isConnected = true
  · cases s with
    | memory s =>
      rw [list, either, lift_eq (MemoryStore.list_run hc recycledToo)] at h
      cases h
      intro r hr
      obtain ⟨e, he, rfl⟩ := List.mem_map.mp (List.mem_filter.mp hr).1
      exact hs e he
    | durable s =>
      rw [list, either, lift_eq (DurableStore.list_run hc recycledToo)] at h
      exact DurableStore.AllMethods.listFrom hs h
  · rw [list_offline (Bool.not_eq_true _ ▸ hc)] at h
    cases h

theorem AllMethods.update (hs : s.AllMethods G) (id : ObjectId) {u : Update} (hu : u.AllMethods G) :
    (update id u s).2.AllMethods G := by
  by_cases hc : s.isConnected = true
  · cases s with
    | memory s =>
      rw [Store.update, either, lift_eq (MemoryStore.update_run hc id u)]
      cases hr : s.records.get? id with
      | none => exact hs
      | some r => exact MemoryStore.AllMethods.put hs id (hu.applyTo (hs _ (Dict.mem_of_get? hr)))
    | durable s =>
      rw [Store.update, either, lift_eq (DurableStore.update_run hc id u)]
      split
      · exact hs
      · exact hs
      · exact DurableStore.AllMethods.writeEntries hu id hs
  · rw [update_offline (Bool.not_eq_true _ ▸ hc)]
    exact hs

theorem AllMethods.create (hs : s.AllMethods G) {r : Record} (hr : r.AllMethods G) :
    (create r s).2.AllMethods G := by
  by_cases hc : s.isConnected = true
  · cases s with
    | memory s =>
      rw [Store.create, either, lift_eq (MemoryStore.create_run hc r)]
      exact MemoryStore.AllMethods.put hs _ hr
    | durable s =>
      rw [Store.create, either, lift_eq (DurableStore.create_run hc r)]
      split
      · exact hs
      · refine DurableStore.AllMethods.writeEntries (fun name m hm => ?_) _ hs
        obtain ⟨e, he, heq⟩ := List.mem_map.mp hm
        obtain ⟨-, hsome⟩ := Prod.mk.inj heq
        cases hsome
        exact hr e he
  · rw [create_offline (Bool.not_eq_true _ ▸ hc)]
    exact hs

end Store

end Lineage
