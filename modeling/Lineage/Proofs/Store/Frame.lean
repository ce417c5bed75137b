/-
  Lineage.Proofs.Store.Frame

  What an operation on one object leaves of the others.

  What a connected store gives for an object (`Store.read`) depends neither on its counts
  nor on what is written of other objects (`update_wrote`, `create_run`); a listing
  gives what is read one by one (`read_of_list`); and no more objects can be read than
  the store has entries (`length_le_size`).  None of this asks that texts can be read back.
-/
import Mathlib.Data.List.Nodup
import Mathlib.Data.List.Perm.Subperm
import Lineage.Proofs.Store.Counting
import Lineage.Proofs.Store.Faithful
import Lineage.Proofs.Store.Tables

namespace Lineage

-- Eight bytes are not to be computed with.
attribute [local irreducible] ObjectId.bytes

namespace Dict

variable {κ α : Type} [Ord κ] [Std.LawfulEqOrd κ]

/-- A new entry that is not chosen changes nothing of what is chosen. -/
theorem filter_put {p : κ → Bool} {key : κ} (hp : p key = false) (d : Dict κ α) (value : α) :
    (d.put key value).filter (fun e => p e.1) = d.filter fun e => p e.1 := by
  have hskip (rest : Dict κ α) : List.filter (fun e => p e.1) ((key, value) :: rest) =
      List.filter (fun e => p e.1) rest := by
    rw [List.filter_cons, if_neg (Bool.eq_false_iff.mp hp)]
  induction d with
  | nil => exact hskip []
  | cons head rest ih =>
    obtain ⟨k, v⟩ := head
    simp only [put]
    split
    · exact hskip _
    · rename_i heq
      obtain rfl : key = k := Std.LawfulEqOrd.compare_eq_iff_eq.mp heq
      rw [hskip, List.filter_cons, if_neg (Bool.eq_false_iff.mp hp)]
    · rw [List.filter_cons, List.filter_cons, ih]

theorem filter_remove {p : κ → Bool} {key : κ} (hp : p key = false) (d : Dict κ α) :
    (d.remove key).filter (fun e => p e.1) = d.filter fun e => p e.1 := by
  induction d with
  | nil => rfl
  | cons head rest ih =>
    obtain ⟨k, v⟩ := head
    simp only [remove]
    split
    · rename_i heq
      obtain rfl : key = k := Std.LawfulEqOrd.compare_eq_iff_eq.mp heq
      rw [List.filter_cons, if_neg (Bool.eq_false_iff.mp hp)]
    · rw [List.filter_cons, List.filter_cons, ih]

end Dict

namespace DurableStore

variable {α : Type}

/-- Entries that are written for one object are not those of another. -/
theorem owned_writeEntries {id other : ObjectId} (h : other ≠ id) (read : Json → Option α)
    (write : α → Json) (changes : Dict String (Option α)) (t : Table) :
    owned other read (writeEntries id write changes t) = owned other read t := by
  have hforeign (name : String) : other.bytes.isPrefixOf (entryKey id name) = false :=
    Bool.eq_false_iff.mpr fun hp => h (prefix_entryKey_iff.mp (isPrefixOf_iff.mp hp))
  have hfilter : (writeEntries id write changes t).filter (fun e => other.bytes.isPrefixOf e.1) =
      t.filter fun e => other.bytes.isPrefixOf e.1 := by
    induction changes generalizing t with
    | nil => rfl
    | cons change changes ih =>
      obtain ⟨name, _ | a⟩ := change
      · exact (ih _).trans (Dict.filter_remove (hforeign name) t)
      · exact (ih _).trans (Dict.filter_put (hforeign name) t _)
  rw [Spreads.owned_eq, Spreads.owned_eq, hfilter]

variable {s : DurableStore}

/-- What is read of an object, from its header and its entries alone. -/
theorem read_congr {t : DurableStore} (hs : s.Faithful) {id : ObjectId}
    (hobjects : t.objects.get? id.bytes = s.objects.get? id.bytes)
    (hproperties : owned id (Json.value? Json.maxDepth) t.properties =
      owned id (Json.value? Json.maxDepth) s.properties)
    (hmethods : owned id (Json.method? Json.maxDepth) t.methods =
      owned id (Json.method? Json.maxDepth) s.methods) : t.read id = s.read id := by
  have hheader : t.header id = s.header id := by
    rw [header, header, hobjects]
  rw [read, read, hheader]
  cases hh : s.header id with
  | error e => rfl
  | ok found =>
    cases found with
    | none => rfl
    | some h =>
      have hid : h.id = id := header_id hs hh
      dsimp only
      rw [record, record, hid, hproperties, hmethods]

theorem mem_keys_of_read {id : ObjectId} (h : s.read id ≠ .ok none) :
    id.bytes ∈ s.objects.map Prod.fst := by
  cases htext : s.objects.get? id.bytes with
  | none =>
    rw [read, header, htext] at h
    exact absurd rfl h
  | some text => exact List.mem_map_of_mem (f := Prod.fst) (Dict.mem_of_get? htext)

/-- A record that is listed is the one that is read under its id.  Induction on the headers that
are still to be listed. -/
theorem read_of_listFrom (hs : s.Faithful) (horder : s.objects.Ordered) {recycledToo : Bool}
    {entries : Table} (hentries : ∀ e ∈ entries, e ∈ s.objects) {records : List Record}
    (hlist : s.listFrom recycledToo entries = .ok records) {r : Record} (hr : r ∈ records) :
    s.read r.id = .ok (some r) := by
  induction entries generalizing records with
  | nil =>
    cases hlist
    cases hr
  | cons e rest ih =>
    obtain ⟨key, text⟩ := e
    have hrest := fun {records} => @ih (fun e he => hentries e (List.mem_cons_of_mem _ he)) records
    obtain ⟨id, h, more, hdecode, hmore, ⟨-, rfl⟩ | ⟨-, r', hrecord, rfl⟩⟩ := listFrom_cons hlist
    · exact hrest hmore hr
    · rcases List.mem_cons.mp hr with rfl | hr
      · -- The header stands under the key of its id, where reading the record looks for it.
        have hmem : (key, text) ∈ s.objects := hentries _ List.mem_cons_self
        have hkey : key = h.id.bytes := hs _ hmem h (decode_ok hdecode)
        have hheader : s.header h.id = .ok (some h) := by
          rw [header, ← hkey, Dict.get?_of_mem horder hmem]
          dsimp only
          rw [decode, decode_ok hdecode]
          rfl
        rw [record_id hrecord]
        exact read_some.mpr ⟨h, hheader, hrecord⟩
      · exact hrest hmore hr

end DurableStore

namespace Store

variable {s t : Store}

/-! ## Reading -/

/-- What a connected store gives for an object. -/
def read : Store → ObjectId → Except StoreError (Option Record)
  | .memory s, id => .ok (s.records.get? id)
  | .durable s, id => s.read id

theorem fetch_read (hc : s.isConnected = true) (id : ObjectId) : (fetch id s).1 = s.read id := by
  cases s with
  | memory s =>
    rw [fetch, either, lift_eq (MemoryStore.fetch_run hc id)]
    rfl
  | durable s =>
    rw [fetch, either, lift_eq (DurableStore.fetch_run hc id)]
    rfl

theorem read_id (hs : s.Faithful) {id : ObjectId} {r : Record} (hr : s.read id = .ok (some r)) :
    r.id = id := by
  cases s with
  | memory s => exact hs _ (Dict.mem_of_get? (Except.ok.inj hr))
  | durable s => exact DurableStore.read_id hs hr

theorem Same.read (h : Same s t) : s.read = t.read :=
  h.congr fun s => by cases s <;> rfl

theorem Same.size (h : Same s t) : s.size = t.size :=
  h.congr fun s => by cases s <;> rfl

theorem Same.faithful (h : Same s t) : s.Faithful ↔ t.Faithful :=
  Iff.of_eq (h.congr (f := Faithful) fun s => by cases s <;> rfl)

/-- No more objects can be read than there are entries for. -/
theorem length_le_size {ids : List ObjectId} (hnodup : ids.Nodup)
    (hids : ∀ id ∈ ids, s.read id ≠ .ok none) : ids.length ≤ s.size := by
  cases s with
  | memory s =>
    have hsubset : ids ⊆ s.records.map Prod.fst := by
      intro id hid
      cases hr : s.records.get? id with
      | none => exact absurd (congrArg Except.ok hr) (hids id hid)
      | some r => exact List.mem_map_of_mem (f := Prod.fst) (Dict.mem_of_get? hr)
    have hlength := (List.Nodup.subperm hnodup hsubset).length_le
    rw [List.length_map] at hlength
    exact hlength
  | durable s =>
    have hsubset : ids.map ObjectId.bytes ⊆ s.objects.map Prod.fst := by
      intro key hkey
      obtain ⟨id, hid, rfl⟩ := List.mem_map.mp hkey
      exact DurableStore.mem_keys_of_read (hids id hid)
    have hkeys : (ids.map ObjectId.bytes).Nodup :=
      List.Nodup.map (fun _ _ h => DurableStore.bytes_inj h) hnodup
    have hlength := (List.Nodup.subperm hkeys hsubset).length_le
    rw [List.length_map, List.length_map] at hlength
    exact hlength

/-! ## Listing -/

/-- Entries stand in the order of their keys. -/
def Ordered : Store → Prop
  | .memory s => s.records.Ordered
  | .durable s => s.objects.Ordered

theorem Same.ordered (h : Same s t) : s.Ordered ↔ t.Ordered :=
  Iff.of_eq (h.congr (f := Ordered) fun s => by cases s <;> rfl)

theorem list_offline (hc : s.isConnected = false) (recycledToo : Bool) :
    list recycledToo s = (.error .notConnected, s) := by
  cases s with
  | memory s => exact lift_eq (MemoryStore.opened_bind_offline hc _)
  | durable s => exact lift_eq (DurableStore.opened_bind_offline hc _)

theorem list_same (recycledToo : Bool) (s : Store) : Same (list recycledToo s).2 s := by
  by_cases hc : s.isConnected = true
  · cases s with
    | memory s =>
      rw [list, either, lift_eq (MemoryStore.list_run hc recycledToo)]
      rfl
    | durable s =>
      rw [list, either, lift_eq (DurableStore.list_run hc recycledToo)]
      rfl
  · rw [list_offline (Bool.not_eq_true _ ▸ hc)]
    exact .refl s

/-- A record that is listed is the one that is read under its id. -/
theorem read_of_list (hs : s.Faithful) (horder : s.Ordered) (hc : s.isConnected = true)
    {recycledToo : Bool} {records : List Record} (hlist : (list recycledToo s).1 = .ok records)
    {r : Record} (hr : r ∈ records) : s.read r.id = .ok (some r) := by
  cases s with
  | memory s =>
    rw [list, either, lift_eq (MemoryStore.list_run hc recycledToo)] at hlist
    cases hlist
    obtain ⟨e, he, rfl⟩ := List.mem_map.mp (List.mem_filter.mp hr).1
    rw [hs e he]
    exact congrArg Except.ok (Dict.get?_of_mem horder he)
  | durable s =>
    rw [list, either, lift_eq (DurableStore.list_run hc recycledToo)] at hlist
    exact DurableStore.read_of_listFrom hs horder (fun _ he => he) hlist hr

/-! ## Writing -/

/-- Nothing but one object has been written. -/
structure Wrote (id : ObjectId) (s t : Store) : Prop where
  connected : t.isConnected = s.isConnected
  ordered : s.Ordered → t.Ordered
  others : ∀ other, other ≠ id → t.read other = s.read other

theorem Wrote.refl (id : ObjectId) (s : Store) : Wrote id s s := ⟨rfl, fun h => h, fun _ _ => rfl⟩


theorem update_wrote (hs : s.Faithful) (id : ObjectId) (u : Update) : Wrote id s (update id u s).2 := by
  by_cases hc : s.isConnected = true
  · cases s with
    | memory s =>
      rw [update, either, lift_eq (MemoryStore.update_run hc id u)]
      cases s.records.get? id with
      | none => exact .refl id _
      | some r =>
        exact ⟨rfl, fun h => Dict.Ordered.put h _ _,
          fun other h => congrArg Except.ok (Dict.get?_put_ne _ _ h)⟩
    | durable s =>
      rw [update, either, lift_eq (DurableStore.update_run hc id u)]
      rcases s.header id with e | _ | header
      · exact .refl id _
      · exact .refl id _
      · have hobjects (hu : u.touchesHeader = true ∨ ¬u.touchesHeader = true) :
            (s.objects.Ordered → (if u.touchesHeader then
              s.objects.put id.bytes (header.apply u).toJson.write else s.objects).Ordered) ∧
            ∀ other, other ≠ id → (if u.touchesHeader then
              s.objects.put id.bytes (header.apply u).toJson.write else s.objects).get? other.bytes =
                s.objects.get? other.bytes := by
          rcases hu with hu | hu
          · rw [if_pos hu]
            exact ⟨fun h => Dict.Ordered.put h _ _,
              fun other h => Dict.get?_put_ne _ _ fun hb => h (DurableStore.bytes_inj hb)⟩
          · rw [if_neg hu]
            exact ⟨fun h => h, fun _ _ => rfl⟩
        obtain ⟨horder, hget⟩ := hobjects (Classical.em _)
        exact ⟨rfl, horder, fun other h => DurableStore.read_congr hs (hget other h)
          (DurableStore.owned_writeEntries h _ _ _ _) (DurableStore.owned_writeEntries h _ _ _ _)⟩
  · rw [update_offline (Bool.not_eq_true _ ▸ hc)]
    exact .refl id _

/-- What is not there is not written. -/
theorem update_absent {id : ObjectId} (hr : s.read id = .ok none) (u : Update) :
    (update id u s).2 = s := by
  by_cases hc : s.isConnected = true
  · cases s with
    | memory s =>
      rw [update, either, lift_eq (MemoryStore.update_run hc id u), Except.ok.inj hr]
    | durable s =>
      rw [update, either, lift_eq (DurableStore.update_run hc id u), DurableStore.read_none.mp hr]
  · rw [update_offline (Bool.not_eq_true _ ▸ hc)]

theorem read_update_absent (hs : s.Faithful) {other : ObjectId} (hr : s.read other = .ok none)
    (id : ObjectId) (u : Update) : (update id u s).2.read other = .ok none := by
  by_cases h : other = id
  · rw [← h, update_absent hr]
    exact hr
  · rw [(update_wrote hs id u).others other h, hr]

/-- The number of the object that is created next. -/
def next : Store → Except StoreError Int64
  | .memory s => .ok s.nextId
  | .durable s => DurableStore.sequenceValue s.sequence

theorem Same.next (h : Same s t) : s.next = t.next :=
  h.congr fun s => by cases s <;> rfl

theorem next_update (id : ObjectId) (u : Update) (s : Store) : (update id u s).2.next = s.next := by
  by_cases hc : s.isConnected = true
  · cases s with
    | memory s =>
      rw [update, either, lift_eq (MemoryStore.update_run hc id u)]
      cases s.records.get? id <;> rfl
    | durable s =>
      rw [update, either, lift_eq (DurableStore.update_run hc id u)]
      rcases s.header id with e | _ | header <;> rfl
  · rw [update_offline (Bool.not_eq_true _ ▸ hc)]

theorem create_offline (hc : s.isConnected = false) (r : Record) :
    create r s = (.error .notConnected, s) := by
  cases s with
  | memory s => exact lift_eq (MemoryStore.opened_bind_offline hc _)
  | durable s => exact lift_eq (DurableStore.opened_bind_offline hc _)

theorem create_failed (hc : s.isConnected = true) {e : StoreError} (he : s.next = .error e)
    (r : Record) : create r s = (.error e, s) := by
  cases s with
  | memory s => cases he
  | durable s =>
    have hrun := DurableStore.create_run hc r
    rw [show DurableStore.sequenceValue s.sequence = .error e from he] at hrun
    exact lift_eq hrun

/-- A new object gets the next number, and the one after it will be next. -/
theorem create_run (hc : s.isConnected = true) (hs : s.Faithful) {n : Int64} (hn : s.next = .ok n)
    (r : Record) : ∃ t, create r s = (.ok ⟨n⟩, t) ∧ Wrote ⟨n⟩ s t ∧ t.next = .ok (n + 1) := by
  cases s with
  | memory s =>
    cases hn
    exact ⟨_, lift_eq (MemoryStore.create_run hc r), ⟨rfl, fun h => Dict.Ordered.put h _ _,
      fun other h => congrArg Except.ok (Dict.get?_put_ne _ _ h)⟩, rfl⟩
  | durable s =>
    have hrun := DurableStore.create_run hc r
    rw [show DurableStore.sequenceValue s.sequence = .ok n from hn] at hrun
    refine ⟨_, lift_eq hrun, ⟨rfl, fun h => Dict.Ordered.put h _ _, fun other h =>
      DurableStore.read_congr hs (Dict.get?_put_ne _ _ fun hb => h (DurableStore.bytes_inj hb))
        (DurableStore.owned_writeEntries h _ _ _ _) (DurableStore.owned_writeEntries h _ _ _ _)⟩, ?_⟩
    have hbytes := ObjectId.ofBytes?_bytes ⟨n + 1⟩
    show DurableStore.sequenceValue (some (DurableStore.sequenceBytes (n + 1))) = _
    simp only [DurableStore.sequenceValue, DurableStore.sequenceBytes, List.reverse_reverse, hbytes]

/-! ## Counting -/

theorem uncounted_same (s : Store) : Same s.uncounted s := by
  cases s <;> rfl

/-- Stores that differ in their counts alone create the same. -/
theorem Same.create (h : Same s t) (r : Record) :
    (create r s).1 = (create r t).1 ∧ Same (create r s).2 (create r t).2 := by
  rcases h.cases with rfl | ⟨m, reads, writes, rfl, rfl⟩
  · exact ⟨rfl, .refl _⟩
  · by_cases hc : m.connected = true
    · rw [Store.create, either, either, lift_eq (MemoryStore.create_run hc r),
        lift_eq (MemoryStore.create_run (s := { m with reads, writes }) hc r)]
      exact ⟨rfl, rfl⟩
    · have hc' := Bool.not_eq_true _ ▸ hc
      rw [create_offline (s := .memory m) hc', create_offline (s := .memory { m with reads, writes }) hc']
      exact ⟨rfl, rfl⟩

theorem Same.list (h : Same s t) (recycledToo : Bool) :
    (list recycledToo s).1 = (list recycledToo t).1 := by
  rcases h.cases with rfl | ⟨m, reads, writes, rfl, rfl⟩
  · rfl
  · by_cases hc : m.connected = true
    · rw [Store.list, either, either, lift_eq (MemoryStore.list_run hc recycledToo),
        lift_eq (MemoryStore.list_run (s := { m with reads, writes }) hc recycledToo)]
    · have hc' := Bool.not_eq_true _ ▸ hc
      rw [list_offline (s := .memory m) hc', list_offline (s := .memory { m with reads, writes }) hc']

end Store

end Lineage
