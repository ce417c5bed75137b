/-
  Lineage.Proofs.Store.Agreement

  The two kinds of store do the same.

  A memory store and a durable store agree (`Agrees`) when the tables of the one say
  what the records of the other are.  Reading both gives the same records, and every
  operation on both has the same outcome and leaves them in agreement.
-/
import Lineage.Proofs.Store.Outcomes
import Lineage.Proofs.Store.Tables

namespace Lineage

-- Eight bytes are not to be computed with.
attribute [local irreducible] ObjectId.bytes

/-! ## The relation -/

/-- What is stored as the header of a record. -/
def headerText (r : Record) : String := (Header.ofRecord r).toJson.write

namespace MemoryStore

/-- A part of each stored record; nothing for objects that are not stored. -/
def content {α : Type} (records : Dict ObjectId Record) (part : Record → OrderedDict String α)
    (id : ObjectId) : OrderedDict String α :=
  ((records.get? id).map part).getD {}

variable {α : Type} {records : Dict ObjectId Record} {part : Record → OrderedDict String α}

theorem content_put (id : ObjectId) (r : Record) : content (records.put id r) part =
    DurableStore.assign (content records part) id (part r) := by
  funext other
  unfold content DurableStore.assign
  rw [Dict.get?_put]
  split <;> rfl

theorem content_remove (h : records.Ordered) (id : ObjectId) : content (records.remove id) part =
    DurableStore.assign (content records part) id {} := by
  funext other
  unfold content DurableStore.assign
  rw [Dict.get?_remove h]
  split <;> rfl

theorem content_stored {id : ObjectId} {r : Record} (h : records.get? id = some r) :
    content records part id = part r := by
  rw [content, h]
  rfl

theorem content_missing {id : ObjectId} (h : records.get? id = none) :
    content records part id = {} := by
  rw [content, h]
  rfl

end MemoryStore

open MemoryStore (content content_put content_remove content_stored content_missing)

/-- The stores hold the same records; `given` ids have been handed out. -/
structure Agrees (m : MemoryStore) (d : DurableStore) (given : Nat) : Prop where
  connected : d.connected = m.connected
  next : m.nextId = Int64.ofNat given
  sequence : DurableStore.sequenceValue d.sequence = .ok m.nextId
  order : m.records.Ordered
  ids : ∀ e ∈ m.records, e.2.id = e.1
  survive : ∀ e ∈ m.records, e.2.Survives
  below : ∀ e ∈ m.records, 0 ≤ e.1.number.toInt ∧ e.1.number.toInt < given
  tableOrder : d.objects.Ordered
  keys : ∀ e ∈ d.objects, ∃ id : ObjectId, e.1 = id.bytes
  headers : ∀ id, d.objects.get? id.bytes = (m.records.get? id).map headerText
  properties : DurableStore.Spreads Json.ofValue (content m.records Record.properties) d.properties
  methods : DurableStore.Spreads Json.ofMethod (content m.records Record.methods) d.methods

namespace Agrees

variable {m : MemoryStore} {d : DurableStore} {given : Nat}

/-- Two empty stores. -/
theorem empty : Agrees {} {} 0 where
  connected := rfl
  next := rfl
  sequence := rfl
  order := .nil
  ids _ he := nomatch he
  survive _ he := nomatch he
  below _ he := nomatch he
  tableOrder := .nil
  keys _ he := nomatch he
  headers _ := rfl
  properties := .nil
  methods := .nil

/-! ## Reading -/

theorem decode_header {r : Record} (hr : r.Survives) (id : ObjectId) :
    DurableStore.decode id Header.ofJson? (headerText r) = .ok (Header.ofRecord r) := by
  have hread := Header.read_write (h := Header.ofRecord r) ⟨hr.created, hr.modified⟩
  rw [DurableStore.decode, headerText, hread]

theorem header (h : Agrees m d given) (id : ObjectId) :
    d.header id = .ok ((m.records.get? id).map Header.ofRecord) := by
  rw [DurableStore.header, h.headers]
  cases hr : m.records.get? id with
  | none => rfl
  | some r =>
    simp only [Option.map_some, decode_header (h.survive _ (Dict.mem_of_get? hr))]
    rfl

theorem record (h : Agrees m d given) {id : ObjectId} {r : Record}
    (hr : m.records.get? id = some r) : d.record (Header.ofRecord r) = .ok r := by
  have hmem := Dict.mem_of_get? hr
  have hsurvive := h.survive _ hmem
  have hid : (Header.ofRecord r).id = id := h.ids _ hmem
  have hproperties : DurableStore.owned id (Json.value? Json.maxDepth) d.properties =
      .ok r.properties := by
    have hcontent : content m.records Record.properties id = r.properties := content_stored hr
    rw [← hcontent]
    exact h.properties.owned id (hcontent ▸ hsurvive.values)
  have hmethods : DurableStore.owned id (Json.method? Json.maxDepth) d.methods = .ok r.methods := by
    have hcontent : content m.records Record.methods id = r.methods := content_stored hr
    rw [← hcontent]
    exact h.methods.owned id (hcontent ▸ hsurvive.sources)
  rw [DurableStore.record, hid, hproperties, hmethods]
  rfl

theorem read (h : Agrees m d given) (id : ObjectId) : d.read id = .ok (m.records.get? id) := by
  rw [DurableStore.read, h.header]
  cases hr : m.records.get? id with
  | none => rfl
  | some r =>
    simp only [Option.map_some, h.record hr]
    rfl

/-- The tables list the headers in the order of the ids. -/
theorem objects_eq (h : Agrees m d given) :
    d.objects = m.records.map fun e => (e.1.bytes, headerText e.2) := by
  have horder : Dict.Ordered (m.records.map fun e => (e.1.bytes, headerText e.2)) := by
    refine List.pairwise_map.mpr (List.Pairwise.imp_of_mem (fun {a b} ha _ hlt => ?_) h.order)
    exact ObjectId.compare_bytes (h.below a ha).1 hlt
  refine h.tableOrder.ext_mem horder fun e => ?_
  rw [List.mem_map]
  constructor
  · intro he
    obtain ⟨key, text⟩ := e
    obtain ⟨id, rfl⟩ : ∃ id : ObjectId, key = id.bytes := h.keys _ he
    have hheader := h.headers id
    rw [Dict.get?_of_mem h.tableOrder he] at hheader
    obtain ⟨r, hr, rfl⟩ := Option.map_eq_some_iff.mp hheader.symm
    exact ⟨(id, r), Dict.mem_of_get? hr, rfl⟩
  · rintro ⟨⟨id, r⟩, hmem, rfl⟩
    refine Dict.mem_of_get? ((h.headers id).trans ?_)
    rw [Dict.get?_of_mem h.order hmem, Option.map_some]

/-- Induction on the records that are still to be listed. -/
theorem listFrom (h : Agrees m d given) (recycledToo : Bool) {records : Dict ObjectId Record}
    (hrecords : ∀ e ∈ records, e ∈ m.records) :
    d.listFrom recycledToo (records.map fun e => (e.1.bytes, headerText e.2)) =
      .ok (records.values.filter fun r => recycledToo || !r.recycled) := by
  induction records with
  | nil => rfl
  | cons e rest ih =>
    obtain ⟨id, r⟩ := e
    have hmem := hrecords (id, r) List.mem_cons_self
    have hr : m.records.get? id = some r := Dict.get?_of_mem h.order hmem
    have hheader := decode_header (h.survive _ hmem) id
    have hrest := ih fun e he => hrecords e (List.mem_cons_of_mem _ he)
    have hstep : d.listFrom recycledToo
        (((id, r) :: rest).map fun e => (e.1.bytes, headerText e.2)) =
        if r.recycled && !recycledToo then .ok ((Dict.values rest).filter fun r => recycledToo || !r.recycled)
        else .ok (r :: (Dict.values rest).filter fun r => recycledToo || !r.recycled) := by
      simp only [List.map_cons, DurableStore.listFrom, ObjectId.ofBytes?_bytes, hheader, hrest]
      show (if r.recycled && !recycledToo then _ else
        (d.record (Header.ofRecord r) >>= fun r => _ : Except StoreError (List Record))) = _
      rw [h.record hr]
      rfl
    rw [hstep]
    show _ = Except.ok ((r :: Dict.values rest).filter _)
    rw [List.filter_cons]
    cases recycledToo <;> cases r.recycled <;> rfl

theorem fetch (h : Agrees m d given) (hc : m.connected = true) (id : ObjectId) :
    DurableStore.fetch id d = (.ok (m.records.get? id), d) := by
  rw [DurableStore.fetch_run (h.connected.trans hc), h.read]

theorem list (h : Agrees m d given) (hc : m.connected = true) (recycledToo : Bool) :
    DurableStore.list recycledToo d =
      (.ok (m.records.values.filter fun r => recycledToo || !r.recycled), d) := by
  rw [DurableStore.list_run (h.connected.trans hc), h.objects_eq,
    h.listFrom recycledToo fun _ he => he]

/-- Connecting and disconnecting changes nothing that is stored. -/
theorem linked (h : Agrees m d given) (connected : Bool) :
    Agrees { m with connected } { d with connected } given :=
  ⟨rfl, h.next, h.sequence, h.order, h.ids, h.survive, h.below, h.tableOrder, h.keys, h.headers,
    h.properties, h.methods⟩

/-- Counting reads and writes does not matter. -/
theorem counted (h : Agrees m d given) (reads writes : Nat) :
    Agrees { m with reads, writes } d given :=
  ⟨h.connected, h.next, h.sequence, h.order, h.ids, h.survive, h.below, h.tableOrder, h.keys,
    h.headers, h.properties, h.methods⟩

/-! ## Writing -/

/-- A record is stored anew or in place of what was stored under its id. -/
theorem stored (h : Agrees m d given) {r : Record} (hr : r.Survives)
    (hbelow : 0 ≤ r.id.number.toInt ∧ r.id.number.toInt < given) {objects properties methods : Table}
    (hobjects : objects = d.objects.put r.id.bytes (headerText r))
    (hproperties : DurableStore.Spreads Json.ofValue
      (DurableStore.assign (content m.records Record.properties) r.id r.properties) properties)
    (hmethods : DurableStore.Spreads Json.ofMethod
      (DurableStore.assign (content m.records Record.methods) r.id r.methods) methods) :
    Agrees { m with records := m.records.put r.id r } { d with objects, properties, methods }
      given where
  connected := h.connected
  next := h.next
  sequence := h.sequence
  order := h.order.put _ _
  ids := by
    intro e he
    rcases Dict.mem_put he with rfl | he
    · rfl
    · exact h.ids e he
  survive := by
    intro e he
    rcases Dict.mem_put he with rfl | he
    · exact hr
    · exact h.survive e he
  below := by
    intro e he
    rcases Dict.mem_put he with rfl | he
    · exact hbelow
    · exact h.below e he
  tableOrder := hobjects ▸ h.tableOrder.put _ _
  keys := by
    subst hobjects
    intro e he
    rcases Dict.mem_put he with rfl | he
    · exact ⟨r.id, rfl⟩
    · exact h.keys e he
  headers := by
    subst hobjects
    intro id
    rw [Dict.get?_put, Dict.get?_put, h.headers]
    by_cases hid : id = r.id
    · rw [if_pos hid, if_pos (congrArg ObjectId.bytes hid), Option.map_some]
    · rw [if_neg hid, if_neg fun hbytes => hid (DurableStore.bytes_inj hbytes)]
  properties := hproperties.congr (content_put r.id r)
  methods := hmethods.congr (content_put r.id r)

/-- Another id counts as given. -/
theorem numbered (h : Agrees m d given) :
    Agrees { m with nextId := m.nextId + 1 }
      { d with sequence := some (DurableStore.sequenceBytes (m.nextId + 1)) } (given + 1) where
  connected := h.connected
  next := by
    show m.nextId + 1 = Int64.ofNat (given + 1)
    rw [h.next, Int64.ofNat_add]
    rfl
  sequence := by
    have hbytes := ObjectId.ofBytes?_bytes ⟨m.nextId + 1⟩
    simp only [DurableStore.sequenceValue, DurableStore.sequenceBytes, List.reverse_reverse, hbytes]
  order := h.order
  ids := h.ids
  survive := h.survive
  below := fun e he => ⟨(h.below e he).1, by have := (h.below e he).2; omega⟩
  tableOrder := h.tableOrder
  keys := h.keys
  headers := h.headers
  properties := h.properties
  methods := h.methods

/-- Ids are handed out in order. -/
theorem create (h : Agrees m d given) (hc : m.connected = true) (hgiven : given < 2 ^ 63)
    {r : Record} (hr : r.Survives) :
    ∃ m' d', MemoryStore.create r m = (.ok ⟨Int64.ofNat given⟩, m') ∧
      DurableStore.create r d = (.ok ⟨Int64.ofNat given⟩, d') ∧ Agrees m' d' (given + 1) := by
  have hrun := DurableStore.create_run (h.connected.trans hc) r
  rw [h.sequence] at hrun
  rw [MemoryStore.create_run hc, ← h.next]
  have hnumber : m.nextId.toInt = given := by
    rw [h.next]
    exact Int64.toInt_ofNat_of_lt hgiven
  have hnew : m.records.get? ⟨m.nextId⟩ = none := by
    cases hold : m.records.get? ⟨m.nextId⟩ with
    | none => rfl
    | some old =>
      have hbelow : m.nextId.toInt < given := (h.below _ (Dict.mem_of_get? hold)).2
      omega
  have hcreated : Record.Survives { r with id := ⟨m.nextId⟩ } :=
    ⟨hr.created, hr.modified, hr.values, hr.sources⟩
  refine ⟨_, _, rfl, hrun, (h.numbered.stored hcreated ⟨?_, ?_⟩ rfl ?_ ?_).counted _ _⟩
  · show 0 ≤ m.nextId.toInt
    omega
  · show m.nextId.toInt < (given + 1 : Nat)
    omega
  · have hwritten := h.properties.writeEntries ⟨m.nextId⟩ (DurableStore.allSet r.properties.entries)
    rw [content_missing hnew, Update.patch_allSet] at hwritten
    exact hwritten
  · have hwritten := h.methods.writeEntries ⟨m.nextId⟩ (DurableStore.allSet r.methods.entries)
    rw [content_missing hnew, Update.patch_allSet] at hwritten
    exact hwritten

theorem update (h : Agrees m d given) (hc : m.connected = true) (id : ObjectId) {u : Update}
    (hu : u.Survives) :
    ∃ result m' d', MemoryStore.update id u m = (result, m') ∧
      DurableStore.update id u d = (result, d') ∧ Agrees m' d' given := by
  have hrun := DurableStore.update_run (h.connected.trans hc) id u
  rw [h.header] at hrun
  rw [MemoryStore.update_run hc]
  cases hr : m.records.get? id with
  | none =>
    rw [hr] at hrun
    exact ⟨_, m, d, rfl, hrun, h⟩
  | some r =>
    rw [hr] at hrun
    have hmem := Dict.mem_of_get? hr
    obtain rfl : r.id = id := h.ids _ hmem
    refine ⟨_, _, _, rfl, hrun, (h.stored (r := u.applyTo r) (hu.applyTo (h.survive _ hmem))
      (h.below _ hmem) ?_ ?_ ?_).counted _ _⟩
    · by_cases htouches : u.touchesHeader = true
      · rw [if_pos htouches]
        rfl
      · -- The header is not written, and is what it would be written as.
        have huntouched := Update.ofRecord_untouched (Bool.not_eq_true _ ▸ htouches) r
        have hstored : d.objects.get? r.id.bytes = some (headerText (u.applyTo r)) := by
          rw [h.headers, hr, Option.map_some, headerText, headerText, huntouched]
        rw [if_neg htouches]
        exact (h.tableOrder.put_self hstored).symm
    · have hwritten := h.properties.writeEntries r.id u.properties
      rw [content_stored hr] at hwritten
      exact hwritten
    · have hwritten := h.methods.writeEntries r.id u.methods
      rw [content_stored hr] at hwritten
      exact hwritten

theorem delete (h : Agrees m d given) (hc : m.connected = true) (id : ObjectId) :
    ∃ result m' d', MemoryStore.delete id m = (result, m') ∧
      DurableStore.delete id d = (result, d') ∧ Agrees m' d' given := by
  have hrun := DurableStore.delete_run (h.connected.trans hc) id
  rw [h.header] at hrun
  rw [MemoryStore.delete_run hc]
  cases hr : m.records.get? id with
  | none =>
    rw [hr] at hrun
    have hmissing : m.records.has id = false := by rw [Dict.has, hr]; rfl
    rw [hmissing]
    exact ⟨_, m, d, rfl, hrun, h⟩
  | some r =>
    rw [hr] at hrun
    have hstored : m.records.has id = true := Dict.has_of_get? hr
    rw [hstored]
    refine ⟨_, _, _, rfl, hrun, ?_⟩
    exact {
      connected := h.connected
      next := h.next
      sequence := h.sequence
      order := h.order.remove id
      ids := fun e he => h.ids e (Dict.mem_remove he)
      survive := fun e he => h.survive e (Dict.mem_remove he)
      below := fun e he => h.below e (Dict.mem_remove he)
      tableOrder := h.tableOrder.remove _
      keys := fun e he => h.keys e (Dict.mem_remove he)
      headers := by
        intro other
        show (d.objects.remove id.bytes).get? other.bytes = ((m.records.remove id).get? other).map _
        rw [Dict.get?_remove h.tableOrder, Dict.get?_remove h.order, h.headers]
        by_cases hid : other = id
        · rw [if_pos hid, if_pos (congrArg ObjectId.bytes hid), Option.map_none]
        · rw [if_neg hid, if_neg fun hbytes => hid (DurableStore.bytes_inj hbytes)]
      properties := (h.properties.removeOwned id).congr (content_remove h.order id)
      methods := (h.methods.removeOwned id).congr (content_remove h.order id) }

end Agrees

end Lineage
