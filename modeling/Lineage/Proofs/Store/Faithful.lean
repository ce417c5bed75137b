/-
  Lineage.Proofs.Store.Faithful

  What is stored under an id carries that id.

  A store that is faithful stays so whatever is done to it (`Store.Edit`).  Of a durable
  store this is a statement about texts: a text that can be read as a header at all
  stands under the bytes of the id that it names.
-/
import Lineage.Proofs.Dict
import Lineage.Proofs.Store.HeaderText
import Lineage.Proofs.Store.Keys
import Lineage.Proofs.Store.Outcomes

namespace Lineage

/-! ## Records in memory -/

namespace MemoryStore

/-- Every record stands under its own id. -/
def Faithful (s : MemoryStore) : Prop := ∀ e ∈ s.records, e.2.id = e.1

variable {s : MemoryStore}

theorem fetch_id (hs : s.Faithful) {id : ObjectId} {r : Record}
    (h : (fetch id s).1 = .ok (some r)) : r.id = id := by
  by_cases hc : s.connected = true
  · rw [fetch_run hc] at h
    exact hs _ (Dict.mem_of_get? (Except.ok.inj h))
  · unfold fetch at h
    rw [opened_bind_offline (Bool.not_eq_true _ ▸ hc)] at h
    cases h

/-- Only what a connected store comes to has to be looked at. -/
theorem Faithful.of_connected {α : Type} {op : StoreOp MemoryStore α} (hs : s.Faithful)
    (hoffline : s.connected = false → op s = (.error .notConnected, s))
    (hop : s.connected = true → (op s).2.Faithful) : (op s).2.Faithful := by
  by_cases hc : s.connected = true
  · exact hop hc
  · rw [hoffline (Bool.not_eq_true _ ▸ hc)]
    exact hs

theorem Faithful.fetch (hs : s.Faithful) (id : ObjectId) : (fetch id s).2.Faithful := by
  refine hs.of_connected (fun hc => opened_bind_offline hc _) fun hc => ?_
  rw [fetch_run hc]
  exact hs

theorem Faithful.list (hs : s.Faithful) (recycledToo : Bool) : (list recycledToo s).2.Faithful := by
  refine hs.of_connected (fun hc => opened_bind_offline hc _) fun hc => ?_
  rw [list_run hc]
  exact hs

theorem Faithful.create (hs : s.Faithful) (r : Record) : (create r s).2.Faithful := by
  refine hs.of_connected (fun hc => opened_bind_offline hc _) fun hc => ?_
  rw [create_run hc]
  intro e he
  rcases Dict.mem_put he with rfl | he
  · rfl
  · exact hs e he

theorem Faithful.put (hs : s.Faithful) (r : Record) : (put r s).2.Faithful := by
  refine hs.of_connected (fun hc => opened_bind_offline hc _) fun hc => ?_
  rw [put_run hc]
  intro e he
  rcases Dict.mem_put he with rfl | he
  · rfl
  · exact hs e he

theorem Faithful.update (hs : s.Faithful) (id : ObjectId) (u : Update) :
    (update id u s).2.Faithful := by
  refine hs.of_connected (fun hc => opened_bind_offline hc _) fun hc => ?_
  rw [update_run hc]
  cases hr : s.records.get? id with
  | none => exact hs
  | some r =>
    intro e he
    rcases Dict.mem_put he with rfl | he
    · show r.id = id
      exact hs (id, r) (Dict.mem_of_get? hr)
    · exact hs e he

theorem Faithful.delete (hs : s.Faithful) (id : ObjectId) : (delete id s).2.Faithful := by
  refine hs.of_connected (fun hc => opened_bind_offline hc _) fun hc => ?_
  rw [delete_run hc]
  split
  · exact fun e he => hs e (Dict.mem_remove he)
  · exact hs

end MemoryStore

/-! ## Texts of records -/

namespace DurableStore

/-- Every header that can be read stands under the bytes of its own id. -/
def Faithful (s : DurableStore) : Prop :=
  ∀ e ∈ s.objects, ∀ h, (Json.read e.2).bind Header.ofJson? = some h → e.1 = h.id.bytes

variable {s : DurableStore}

theorem decode_ok {α : Type} {id : ObjectId} {read : Json → Option α} {text : String} {a : α}
    (h : decode id read text = .ok a) : (Json.read text).bind read = some a := by
  unfold decode at h
  split at h
  · cases h
    assumption
  · cases h

theorem header_id (hs : s.Faithful) {id : ObjectId} {h : Header} (hh : s.header id = .ok (some h)) :
    h.id = id := by
  unfold header at hh
  cases htext : s.objects.get? id.bytes with
  | none => rw [htext] at hh; cases hh
  | some text =>
    simp only [htext] at hh
    cases hd : decode id Header.ofJson? text with
    | error e => rw [hd] at hh; cases hh
    | ok found =>
      rw [hd] at hh
      cases hh
      exact (bytes_inj (hs _ (Dict.mem_of_get? htext) h (decode_ok hd))).symm

theorem record_id {h : Header} {r : Record} (hr : s.record h = .ok r) : r.id = h.id := by
  obtain ⟨properties, methods, -, -, rfl⟩ := record_ok hr
  rfl

theorem read_id (hs : s.Faithful) {id : ObjectId} {r : Record} (h : s.read id = .ok (some r)) :
    r.id = id := by
  obtain ⟨header, hheader, hr⟩ := read_some.mp h
  rw [record_id hr, header_id hs hheader]

theorem fetch_id (hs : s.Faithful) {id : ObjectId} {r : Record}
    (h : (fetch id s).1 = .ok (some r)) : r.id = id := by
  by_cases hc : s.connected = true
  · rw [fetch_run hc] at h
    exact read_id hs h
  · unfold fetch at h
    rw [opened_bind_offline (Bool.not_eq_true _ ▸ hc)] at h
    cases h

/-- Only what a connected store comes to has to be looked at. -/
theorem Faithful.of_connected {α : Type} {op : StoreOp DurableStore α} (hs : s.Faithful)
    (hoffline : s.connected = false → op s = (.error .notConnected, s))
    (hop : s.connected = true → (op s).2.Faithful) : (op s).2.Faithful := by
  by_cases hc : s.connected = true
  · exact hop hc
  · rw [hoffline (Bool.not_eq_true _ ▸ hc)]
    exact hs

/-- The text of a header may be written under the bytes of its id. -/
theorem Faithful.write (hs : s.Faithful) (h : Header) :
    ∀ e ∈ s.objects.put h.id.bytes h.toJson.write, ∀ h',
      (Json.read e.2).bind Header.ofJson? = some h' → e.1 = h'.id.bytes := by
  intro e he h' hread
  rcases Dict.mem_put he with rfl | he
  · rw [Header.id_of_read hread]
  · exact hs e he h' hread

theorem Faithful.fetch (hs : s.Faithful) (id : ObjectId) : (fetch id s).2.Faithful := by
  refine hs.of_connected (fun hc => opened_bind_offline hc _) fun hc => ?_
  rw [fetch_run hc]
  exact hs

theorem Faithful.list (hs : s.Faithful) (recycledToo : Bool) : (list recycledToo s).2.Faithful := by
  refine hs.of_connected (fun hc => opened_bind_offline hc _) fun hc => ?_
  rw [list_run hc]
  exact hs

theorem Faithful.create (hs : s.Faithful) (r : Record) : (create r s).2.Faithful := by
  refine hs.of_connected (fun hc => opened_bind_offline hc _) fun hc => ?_
  rw [create_run hc]
  split
  · exact hs
  · rename_i n hn
    exact hs.write (Header.ofRecord { r with id := ⟨n⟩ })

theorem Faithful.update (hs : s.Faithful) (id : ObjectId) (u : Update) :
    (update id u s).2.Faithful := by
  refine hs.of_connected (fun hc => opened_bind_offline hc _) fun hc => ?_
  rw [update_run hc]
  split
  · exact hs
  · exact hs
  · rename_i header hheader
    by_cases htouches : u.touchesHeader = true
    · simp only [htouches, if_true, ← header_id hs hheader]
      exact hs.write (header.apply u)
    · simp only [htouches, Bool.false_eq_true, if_false]
      exact hs

theorem Faithful.delete (hs : s.Faithful) (id : ObjectId) : (delete id s).2.Faithful := by
  refine hs.of_connected (fun hc => opened_bind_offline hc _) fun hc => ?_
  rw [delete_run hc]
  split
  · exact hs
  · exact hs
  · exact fun e he => hs e (Dict.mem_remove he)

end DurableStore

/-! ## Stores of either kind -/

namespace Store

/-- What is stored under an id carries that id. -/
def Faithful : Store → Prop
  | .memory s => s.Faithful
  | .durable s => s.Faithful

/-- What is done to a store by its operations, whoever calls them. -/
inductive Edit : Store → Store → Prop
  | connect (s : Store) : Edit s (connect s).2
  | disconnect (s : Store) : Edit s (disconnect s).2
  | fetch (s : Store) (id : ObjectId) : Edit s (fetch id s).2
  | list (s : Store) (recycledToo : Bool) : Edit s (list recycledToo s).2
  | create (s : Store) (r : Record) : Edit s (create r s).2
  | update (s : Store) (id : ObjectId) (u : Update) : Edit s (update id u s).2
  | delete (s : Store) (id : ObjectId) : Edit s (delete id s).2
  | put (s : Store) (r : Record) : Edit s (put r s).2
  | damageSequence (s : Store) (bytes : List UInt8) : Edit s (damageSequence bytes s).2

/-- A faithful store stays faithful. -/
theorem Edit.faithful {s s' : Store} (h : Edit s s') (hs : s.Faithful) : s'.Faithful := by
  cases h with
  | fetch id | list recycledToo | create r | update id u | delete id =>
    cases s with
    | memory s => first
      | exact MemoryStore.Faithful.fetch hs id
      | exact MemoryStore.Faithful.list hs recycledToo
      | exact MemoryStore.Faithful.create hs r
      | exact MemoryStore.Faithful.update hs id u
      | exact MemoryStore.Faithful.delete hs id
    | durable s => first
      | exact DurableStore.Faithful.fetch hs id
      | exact DurableStore.Faithful.list hs recycledToo
      | exact DurableStore.Faithful.create hs r
      | exact DurableStore.Faithful.update hs id u
      | exact DurableStore.Faithful.delete hs id
  | put r =>
    cases s with
    | memory s => exact MemoryStore.Faithful.put hs r
    | durable s => exact hs
  | connect | disconnect | damageSequence bytes =>
    cases s with
    | memory s => exact hs
    | durable s => exact hs

theorem Faithful.memory_nil : (Store.memory {}).Faithful := by
  intro e he
  cases he

theorem Faithful.durable_nil : (Store.durable {}).Faithful := by
  intro e he
  cases he

/-- What is fetched has the id that was asked for. -/
theorem fetch_id {s : Store} (hs : s.Faithful) {id : ObjectId} {r : Record}
    (h : (fetch id s).1 = .ok (some r)) : r.id = id := by
  cases s with
  | memory s => exact MemoryStore.fetch_id hs h
  | durable s => exact DurableStore.fetch_id hs h

end Store

end Lineage
