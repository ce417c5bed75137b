/-
  Lineage.Proofs.Store.Outcomes

  What the operations of a store come to, written out.

  An operation of a store that is not connected fails and changes nothing
  (`opened_bind_offline`).  The other equations are about stores that are connected.
-/
import Lineage.Store.Any

namespace Lineage

namespace MemoryStore

variable {s : MemoryStore} {α : Type}

theorem opened_bind (h : s.connected = true) (f : MemoryStore → StoreOp MemoryStore α) :
    (opened >>= f) s = f s s := by
  obtain ⟨connected, records, nextId, reads, writes⟩ := s
  obtain rfl : connected = true := h
  rfl

theorem opened_bind_offline (h : s.connected = false) (f : MemoryStore → StoreOp MemoryStore α) :
    (opened >>= f) s = (.error .notConnected, s) := by
  obtain ⟨connected, records, nextId, reads, writes⟩ := s
  obtain rfl : connected = false := h
  rfl

theorem fetch_run (h : s.connected = true) (id : ObjectId) :
    fetch id s = (.ok (s.records.get? id), { s with reads := s.reads + 1 }) := by
  unfold fetch
  rw [opened_bind h]
  rfl

theorem create_run (h : s.connected = true) (r : Record) :
    create r s = (.ok ⟨s.nextId⟩, { s with
      records := s.records.put ⟨s.nextId⟩ { r with id := ⟨s.nextId⟩ }
      nextId := s.nextId + 1
      writes := s.writes + 1 }) := by
  unfold create
  rw [opened_bind h]
  rfl

theorem update_run (h : s.connected = true) (id : ObjectId) (u : Update) :
    update id u s = (match s.records.get? id with
      | none => (.error (.objectNotFound id), s)
      | some r => (.ok (), { s with
          records := s.records.put id (u.applyTo r)
          writes := s.writes + 1 })) := by
  unfold update
  rw [opened_bind h]
  cases s.records.get? id <;> rfl

theorem delete_run (h : s.connected = true) (id : ObjectId) :
    delete id s = (if s.records.has id then
      (.ok true, { s with records := s.records.remove id, writes := s.writes + 1 })
      else (.ok false, s)) := by
  unfold delete
  rw [opened_bind h]
  split <;> rfl

theorem list_run (h : s.connected = true) (recycledToo : Bool) :
    list recycledToo s = (.ok (s.records.values.filter fun r => recycledToo || !r.recycled),
      { s with reads := s.reads + 1 }) := by
  unfold list
  rw [opened_bind h]
  rfl

theorem put_run (h : s.connected = true) (r : Record) :
    put r s = (.ok (), { s with
      records := s.records.put r.id r
      nextId := max s.nextId (r.id.number + 1)
      writes := s.writes + 1 }) := by
  unfold put
  rw [opened_bind h]
  rfl

end MemoryStore

namespace DurableStore

variable {s : DurableStore} {α : Type}

theorem opened_bind (h : s.connected = true) (f : DurableStore → StoreOp DurableStore α) :
    (opened >>= f) s = f s s := by
  obtain ⟨connected, objects, properties, methods, sequence⟩ := s
  obtain rfl : connected = true := h
  rfl

theorem opened_bind_offline (h : s.connected = false)
    (f : DurableStore → StoreOp DurableStore α) : (opened >>= f) s = (.error .notConnected, s) := by
  obtain ⟨connected, objects, properties, methods, sequence⟩ := s
  obtain rfl : connected = false := h
  rfl

/-- The record of an object, as long as the store is connected. -/
def read (s : DurableStore) (id : ObjectId) : Except StoreError (Option Record) :=
  match s.header id with
  | .error e => .error e
  | .ok none => .ok none
  | .ok (some h) => (s.record h).map some

/-- A record has been made of a header and of what is collected under its id. -/
theorem record_ok {h : Header} {r : Record} (hr : s.record h = .ok r) : ∃ properties methods,
    owned h.id (Json.value? Json.maxDepth) s.properties = .ok properties ∧
      owned h.id (Json.method? Json.maxDepth) s.methods = .ok methods ∧
      r = h.withContents properties methods := by
  unfold record at hr
  cases hp : owned h.id (Json.value? Json.maxDepth) s.properties with
  | error e => rw [hp] at hr; cases hr
  | ok properties =>
    rw [hp] at hr
    cases hm : owned h.id (Json.method? Json.maxDepth) s.methods with
    | error e => rw [hm] at hr; cases hr
    | ok methods =>
      rw [hm] at hr
      cases hr
      exact ⟨properties, methods, rfl, rfl, rfl⟩

theorem read_some {id : ObjectId} {r : Record} : s.read id = .ok (some r) ↔
    ∃ h, s.header id = .ok (some h) ∧ s.record h = .ok r := by
  unfold read
  rcases s.header id with e | _ | h
  · exact ⟨nofun, fun ⟨_, hh, _⟩ => nomatch hh⟩
  · exact ⟨nofun, fun ⟨_, hh, _⟩ => nomatch hh⟩
  · dsimp only
    cases hr : s.record h with
    | error e =>
      refine ⟨nofun, ?_⟩
      rintro ⟨_, ⟨⟩, hread⟩
      rw [hr] at hread
      cases hread
    | ok found =>
      refine ⟨?_, ?_⟩
      · rintro ⟨⟩
        exact ⟨h, rfl, hr⟩
      · rintro ⟨_, ⟨⟩, hread⟩
        rw [hr] at hread
        cases hread
        rfl

theorem read_none {id : ObjectId} : s.read id = .ok none ↔ s.header id = .ok none := by
  unfold read
  rcases s.header id with e | _ | h
  · exact ⟨nofun, nofun⟩
  · exact ⟨fun _ => rfl, fun _ => rfl⟩
  · refine ⟨fun hread => ?_, nofun⟩
    dsimp only at hread
    cases hr : s.record h with
    | error e => rw [hr] at hread; cases hread
    | ok found => rw [hr] at hread; cases hread

/-- A listing that succeeds reads the first header, and has its record before those of the others
unless it is left out. -/
theorem listFrom_cons {recycledToo : Bool} {key : List UInt8} {text : String} {rest : Table}
    {records : List Record} (hlist : s.listFrom recycledToo ((key, text) :: rest) = .ok records) :
    ∃ id h more, decode id Header.ofJson? text = .ok h ∧ s.listFrom recycledToo rest = .ok more ∧
      (((h.recycled && !recycledToo) = true ∧ records = more) ∨
        ¬(h.recycled && !recycledToo) = true ∧ ∃ r, s.record h = .ok r ∧ records = r :: more) := by
  simp only [listFrom] at hlist
  cases hid : ObjectId.ofBytes? key with
  | none => rw [hid] at hlist; cases hlist
  | some id =>
    simp only [hid] at hlist
    cases hdecode : decode id Header.ofJson? text with
    | error err => rw [hdecode] at hlist; cases hlist
    | ok h =>
      rw [hdecode] at hlist
      dsimp only [bind, Except.bind] at hlist
      by_cases hskip : (h.recycled && !recycledToo) = true
      · rw [if_pos hskip] at hlist
        exact ⟨id, h, records, hdecode, hlist, .inl ⟨hskip, rfl⟩⟩
      · rw [if_neg hskip] at hlist
        cases hrecord : s.record h with
        | error err => rw [hrecord] at hlist; cases hlist
        | ok r =>
          rw [hrecord] at hlist
          dsimp only at hlist
          cases hmore : s.listFrom recycledToo rest with
          | error err => rw [hmore] at hlist; cases hlist
          | ok more =>
            rw [hmore] at hlist
            cases hlist
            exact ⟨id, h, more, hdecode, rfl, .inr ⟨hskip, r, hrecord, rfl⟩⟩

theorem fetch_run (h : s.connected = true) (id : ObjectId) : fetch id s = (s.read id, s) := by
  unfold fetch read
  rw [opened_bind h]
  cases s.header id with
  | error e => rfl
  | ok found =>
    cases found with
    | none => rfl
    | some header =>
      show ((liftM (s.record header) : StoreOp DurableStore Record) >>= fun r => pure (some r)) s =
        ((s.record header).map some, s)
      cases s.record header <;> rfl

theorem create_run (h : s.connected = true) (r : Record) :
    create r s = (match sequenceValue s.sequence with
      | .error e => (.error e, s)
      | .ok n => (.ok ⟨n⟩, { s with
          sequence := some (sequenceBytes (n + 1))
          objects := s.objects.put (ObjectId.bytes ⟨n⟩)
            (Header.ofRecord { r with id := ⟨n⟩ }).toJson.write
          properties := writeEntries ⟨n⟩ Json.ofValue (allSet r.properties.entries) s.properties
          methods := writeEntries ⟨n⟩ Json.ofMethod (allSet r.methods.entries) s.methods })) := by
  unfold create
  rw [opened_bind h]
  cases sequenceValue s.sequence <;> rfl

theorem update_run (h : s.connected = true) (id : ObjectId) (u : Update) :
    update id u s = (match s.header id with
      | .error e => (.error e, s)
      | .ok none => (.error (.objectNotFound id), s)
      | .ok (some header) => (.ok (), { s with
          objects :=
            if u.touchesHeader then s.objects.put id.bytes (header.apply u).toJson.write
            else s.objects
          properties := writeEntries id Json.ofValue u.properties s.properties
          methods := writeEntries id Json.ofMethod u.methods s.methods })) := by
  unfold update
  rw [opened_bind h]
  cases s.header id with
  | error e => rfl
  | ok found => cases found <;> rfl

theorem delete_run (h : s.connected = true) (id : ObjectId) :
    delete id s = (match s.header id with
      | .error e => (.error e, s)
      | .ok none => (.ok false, s)
      | .ok (some _) => (.ok true, { s with
          objects := s.objects.remove id.bytes
          properties := removeOwned id s.properties
          methods := removeOwned id s.methods })) := by
  unfold delete
  rw [opened_bind h]
  cases s.header id with
  | error e => rfl
  | ok found => cases found <;> rfl

theorem list_run (h : s.connected = true) (recycledToo : Bool) :
    list recycledToo s = (s.listFrom recycledToo s.objects, s) := by
  unfold list
  rw [opened_bind h]
  rfl

end DurableStore

namespace Store

/-- What an operation comes to on a store of its kind. -/
theorem lift_eq {σ α : Type} {wrap : σ → Store} {op : StoreOp σ α} {s s' : σ}
    {result : Except StoreError α} (h : op s = (result, s')) :
    lift wrap op s = (result, wrap s') := by
  have hrun : op.run.run s = (result, s') := h
  rw [lift, hrun]

end Store

end Lineage
