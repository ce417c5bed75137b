/-
  Lineage.Proofs.Store.Tidiness

  Stores from which objects are deleted.

  In a tidy store nothing stands but what belongs to an object that is stored (`Store.Tidy`):
  an object is written to only while it is there, and takes all it has along when it is
  deleted (`Store.Tidy.delete`).  So where no object is stored nothing is
  (`Store.Tidy.bare_of_list`), and what is created there is all that can be read
  (`Store.Bare.create`).
-/
import Lineage.Proofs.Store.Agreement
import Lineage.Proofs.Store.Frame

namespace Lineage

-- Eight bytes are not to be computed with.
attribute [local irreducible] ObjectId.bytes

/-! ## Tidy tables -/

namespace DurableStore

variable {s : DurableStore} {objects : Table} {e : List UInt8 × String}

/-- An entry belongs to an object that has a header. -/
def Belongs (objects : Table) (e : List UInt8 × String) : Prop :=
  ∃ id : ObjectId, objects.get? id.bytes ≠ none ∧ id.bytes <+: e.1

/-- There are no entries but those of objects that are stored. -/
structure Tidy (s : DurableStore) : Prop where
  properties : ∀ e ∈ s.properties, Belongs s.objects e
  methods : ∀ e ∈ s.methods, Belongs s.objects e

theorem Tidy.nil : Tidy {} := ⟨nofun, nofun⟩

theorem headed_of_header {id : ObjectId} {h : Header} (hh : s.header id = .ok (some h)) :
    s.objects.get? id.bytes ≠ none := by
  intro hnone
  rw [header, hnone] at hh
  cases hh

theorem Belongs.put (h : Belongs objects e) (key : List UInt8) (text : String) :
    Belongs (objects.put key text) e := by
  obtain ⟨id, hheaded, hprefix⟩ := h
  refine ⟨id, ?_, hprefix⟩
  rw [Dict.get?_put]
  split
  · exact nofun
  · exact hheaded

/-- Entries may be written for an object that is stored.  Induction on the entries. -/
theorem belongs_writeEntries {α : Type} {id : ObjectId} (hheaded : objects.get? id.bytes ≠ none)
    (write : α → Json) (changes : Dict String (Option α)) {t : Table}
    (ht : ∀ e ∈ t, Belongs objects e) : ∀ e ∈ writeEntries id write changes t, Belongs objects e := by
  induction changes generalizing t with
  | nil => exact ht
  | cons change changes ih =>
    obtain ⟨name, _ | a⟩ := change
    · apply ih
      intro e he
      exact ht e (Dict.mem_remove he)
    · apply ih
      intro e he
      rcases Dict.mem_put he with rfl | he
      · exact ⟨id, hheaded, prefix_entryKey_iff.mpr rfl⟩
      · exact ht e he

/-- What an object has goes with it. -/
theorem belongs_removeOwned {id : ObjectId} {t : Table} (ht : ∀ e ∈ t, Belongs objects e) :
    ∀ e ∈ removeOwned id t, Belongs (objects.remove id.bytes) e := by
  intro e he
  obtain ⟨hmem, hforeign⟩ := List.mem_filter.mp he
  obtain ⟨owner, hheaded, hprefix⟩ := ht e hmem
  have hne : owner ≠ id := by
    rintro rfl
    rw [isPrefixOf_iff.mpr hprefix] at hforeign
    cases hforeign
  refine ⟨owner, ?_, hprefix⟩
  rw [Dict.get?_remove_ne]
  · exact hheaded
  · intro hbytes
    exact hne (bytes_inj hbytes)

theorem Tidy.create (hs : s.Tidy) (r : Record) : (create r s).2.Tidy := by
  by_cases hc : s.connected = true
  · rw [create_run hc]
    cases sequenceValue s.sequence with
    | error e => exact hs
    | ok n =>
      dsimp only
      have hheaded (text : String) : (s.objects.put (ObjectId.bytes ⟨n⟩) text).get?
          (ObjectId.bytes ⟨n⟩) ≠ none := by
        rw [Dict.get?_put_self]
        exact nofun
      constructor
      · exact belongs_writeEntries (hheaded _) _ _ fun e he => (hs.properties e he).put _ _
      · exact belongs_writeEntries (hheaded _) _ _ fun e he => (hs.methods e he).put _ _
  · unfold DurableStore.create
    rw [opened_bind_offline (Bool.not_eq_true _ ▸ hc)]
    exact hs

theorem Tidy.update (hs : s.Tidy) (id : ObjectId) (u : Update) : (update id u s).2.Tidy := by
  by_cases hc : s.connected = true
  · rw [update_run hc]
    rcases hheader : s.header id with err | _ | h
    · exact hs
    · exact hs
    · dsimp only
      have hheaded := headed_of_header hheader
      split
      · have hheaded' : (s.objects.put id.bytes (h.apply u).toJson.write).get? id.bytes ≠ none := by
          rw [Dict.get?_put_self]
          exact nofun
        constructor
        · exact belongs_writeEntries hheaded' _ _ fun e he => (hs.properties e he).put _ _
        · exact belongs_writeEntries hheaded' _ _ fun e he => (hs.methods e he).put _ _
      · exact ⟨belongs_writeEntries hheaded _ _ hs.properties, belongs_writeEntries hheaded _ _ hs.methods⟩
  · unfold DurableStore.update
    rw [opened_bind_offline (Bool.not_eq_true _ ▸ hc)]
    exact hs

theorem Tidy.delete (hs : s.Tidy) (id : ObjectId) : (delete id s).2.Tidy := by
  by_cases hc : s.connected = true
  · rw [delete_run hc]
    rcases s.header id with err | _ | h
    · exact hs
    · exact hs
    · exact ⟨belongs_removeOwned hs.properties, belongs_removeOwned hs.methods⟩
  · unfold DurableStore.delete
    rw [opened_bind_offline (Bool.not_eq_true _ ▸ hc)]
    exact hs

/-- Nothing is listed only where there are no headers. -/
theorem listFrom_nil {entries : Table} (hlist : s.listFrom true entries = .ok []) : entries = [] := by
  cases entries with
  | nil => rfl
  | cons e rest =>
    obtain ⟨key, text⟩ := e
    obtain ⟨id, h, more, -, -, ⟨hskip, -⟩ | ⟨-, r, -, hrecords⟩⟩ := listFrom_cons hlist
    · rw [Bool.not_true, Bool.and_false] at hskip
      cases hskip
    · cases hrecords

theorem read_absent {id : ObjectId} : s.read id = .ok none ↔ s.objects.get? id.bytes = none := by
  rw [read_none, header]
  cases s.objects.get? id.bytes with
  | none => exact ⟨fun _ => rfl, fun _ => rfl⟩
  | some text =>
    refine ⟨fun hread => ?_, fun hnone => absurd hnone (Option.some_ne_none text)⟩
    dsimp only at hread
    rcases hheader : decode id Header.ofJson? text with err | h
    · rw [hheader] at hread
      cases hread
    · rw [hheader] at hread
      cases hread

end DurableStore

/-! ## Stores of either kind -/

namespace Store

variable {s t : Store}

/-- Nothing stands in the store but what belongs to an object that is stored. -/
def Tidy : Store → Prop
  | .memory _ => True
  | .durable s => s.Tidy

theorem Same.tidy (h : Same s t) : s.Tidy ↔ t.Tidy :=
  Iff.of_eq (h.congr (f := Tidy) fun s => by cases s <;> rfl)

namespace Tidy

theorem connect (hs : s.Tidy) : (Store.connect s).2.Tidy := by
  cases s with
  | memory s => trivial
  | durable s => exact ⟨hs.properties, hs.methods⟩

theorem disconnect (hs : s.Tidy) : (Store.disconnect s).2.Tidy := by
  cases s with
  | memory s => trivial
  | durable s => exact ⟨hs.properties, hs.methods⟩

theorem create (hs : s.Tidy) (r : Record) : (Store.create r s).2.Tidy := by
  cases s with
  | memory s => trivial
  | durable s => exact DurableStore.Tidy.create hs r

theorem update (hs : s.Tidy) (id : ObjectId) (u : Update) : (Store.update id u s).2.Tidy := by
  cases s with
  | memory s => trivial
  | durable s => exact DurableStore.Tidy.update hs id u

theorem delete (hs : s.Tidy) (id : ObjectId) : (Store.delete id s).2.Tidy := by
  cases s with
  | memory s => trivial
  | durable s => exact DurableStore.Tidy.delete hs id

end Tidy

/-! ## Deleting -/

theorem delete_offline (hc : s.isConnected = false) (id : ObjectId) :
    delete id s = (.error .notConnected, s) := by
  cases s with
  | memory s => exact lift_eq (MemoryStore.opened_bind_offline hc _)
  | durable s => exact lift_eq (DurableStore.opened_bind_offline hc _)

theorem next_delete (id : ObjectId) (s : Store) : (delete id s).2.next = s.next := by
  by_cases hc : s.isConnected = true
  · cases s with
    | memory s =>
      rw [delete, either, lift_eq (MemoryStore.delete_run hc id)]
      cases s.records.has id <;> rfl
    | durable s =>
      rw [delete, either, lift_eq (DurableStore.delete_run hc id)]
      rcases s.header id with e | _ | header <;> rfl
  · rw [delete_offline (Bool.not_eq_true _ ▸ hc)]

theorem ordered_delete (hs : s.Ordered) (id : ObjectId) : (delete id s).2.Ordered := by
  by_cases hc : s.isConnected = true
  · cases s with
    | memory s =>
      rw [delete, either, lift_eq (MemoryStore.delete_run hc id)]
      cases s.records.has id with
      | true => exact Dict.Ordered.remove hs id
      | false => exact hs
    | durable s =>
      rw [delete, either, lift_eq (DurableStore.delete_run hc id)]
      rcases s.header id with e | _ | header
      · exact hs
      · exact hs
      · exact Dict.Ordered.remove hs id.bytes
  · rw [delete_offline (Bool.not_eq_true _ ▸ hc)]
    exact hs

/-- What is not there is not brought in by deleting anything. -/
theorem read_delete_absent (hs : s.Ordered) {other : ObjectId} (hr : s.read other = .ok none)
    (id : ObjectId) : (delete id s).2.read other = .ok none := by
  by_cases hc : s.isConnected = true
  · cases s with
    | memory s =>
      rw [delete, either, lift_eq (MemoryStore.delete_run hc id)]
      cases s.records.has id with
      | true =>
        have habsent : s.records.get? other = none := Except.ok.inj hr
        show Except.ok ((s.records.remove id).get? other) = _
        rw [Dict.get?_remove hs, habsent, ite_self]
      | false => exact hr
    | durable s =>
      rw [delete, either, lift_eq (DurableStore.delete_run hc id)]
      rcases s.header id with e | _ | header
      · exact hr
      · exact hr
      · apply DurableStore.read_absent.mpr
        dsimp only
        rw [Dict.get?_remove hs, DurableStore.read_absent.mp hr, ite_self]
  · rw [delete_offline (Bool.not_eq_true _ ▸ hc)]
    exact hr

/-! ## Stores without objects -/

/-- Nothing is stored. -/
def Bare : Store → Prop
  | .memory s => s.records = []
  | .durable s => s.objects = [] ∧ s.properties = [] ∧ s.methods = []

/-- One record is stored, and no other. -/
structure Sole (s : Store) (r : Record) : Prop where
  read : ∀ id, s.read id = .ok (if id = r.id then some r else none)
  listed : (list true s).1 = .ok [r]

theorem Same.sole (h : Same s t) {r : Record} (ht : t.Sole r) : s.Sole r where
  read id := (congrFun h.read id).trans (ht.read id)
  listed := (h.list true).trans ht.listed

/-- Where nothing is listed nothing is stored. -/
theorem Tidy.bare_of_list (hs : s.Tidy) (hc : s.isConnected = true)
    (hlist : (list true s).1 = .ok []) : s.Bare := by
  cases s with
  | memory s =>
    rw [list, either, lift_eq (MemoryStore.list_run hc true)] at hlist
    have hall : s.records.values = [] := by simpa using hlist
    exact List.map_eq_nil_iff.mp hall
  | durable s =>
    rw [list, either, lift_eq (DurableStore.list_run hc true)] at hlist
    have hobjects : s.objects = [] := DurableStore.listFrom_nil hlist
    have htidy : s.Tidy := hs
    -- An entry would belong to an object that has a header.
    have hnone {t : Table} (ht : ∀ e ∈ t, DurableStore.Belongs s.objects e) : t = [] := by
      apply List.eq_nil_iff_forall_not_mem.mpr
      intro e he
      obtain ⟨id, hheaded, -⟩ := ht e he
      rw [hobjects] at hheaded
      exact hheaded rfl
    exact ⟨hobjects, hnone htidy.properties, hnone htidy.methods⟩

theorem Bare.read (hs : s.Bare) (id : ObjectId) : s.read id = .ok none := by
  cases s with
  | memory s =>
    have hrecords : s.records = [] := hs
    rw [Store.read, hrecords]
    rfl
  | durable s =>
    have hobjects : s.objects = [] := hs.1
    apply DurableStore.read_absent.mpr
    rw [hobjects]
    rfl

theorem sole_created {m : MemoryStore} (hm : m.records = []) (hc : m.connected = true) (r : Record) :
    (Store.create r (.memory m)).2.Sole { r with id := ⟨m.nextId⟩ } := by
  rw [Store.create, either, lift_eq (MemoryStore.create_run hc r), hm]
  refine ⟨fun id => ?_, ?_⟩
  · show Except.ok ((Dict.put [] _ _).get? id) = _
    rw [Dict.get?_put]
    rfl
  · rw [list, either, lift_eq (MemoryStore.list_run _ true)]
    · simp only [Bool.true_or, List.filter_true]
      rfl
    · exact hc

/-- What is created where nothing is stored is all that is stored then. -/
theorem Bare.create (hs : s.Bare) (hc : s.isConnected = true) {n : Int64} (hn : s.next = .ok n)
    (hfirst : 0 ≤ n.toInt) {r : Record} (hr : r.Survives) :
    (Store.create r s).2.Sole { r with id := ⟨n⟩ } := by
  cases s with
  | memory s =>
    cases hn
    exact sole_created hs hc r
  | durable s =>
    obtain ⟨hobjects, hproperties, hmethods⟩ := hs
    have hgiven : n = Int64.ofNat n.toInt.toNat := by
      have hlt := n.toInt_lt
      apply Int64.toInt_inj.mp
      rw [Int64.toInt_ofNat_of_lt (by omega)]
      omega
    -- It is like a store in memory in which nothing is stored either.
    have hagrees : Agrees { connected := true, nextId := n } s n.toInt.toNat := {
      connected := hc
      next := hgiven
      sequence := hn
      order := .nil
      ids := nofun
      survive := nofun
      below := nofun
      tableOrder := hobjects ▸ .nil
      keys := hobjects ▸ nofun
      headers := fun id => by rw [hobjects]; rfl
      properties := hproperties ▸ .nil
      methods := hmethods ▸ .nil }
    have hroom : n.toInt.toNat < 2 ^ 63 := by
      have hlt := n.toInt_lt
      omega
    obtain ⟨m', d', hmemory, hdurable, hagrees'⟩ := hagrees.create rfl hroom hr
    have hsole := sole_created (m := { connected := true, nextId := n }) rfl rfl r
    rw [Store.create, either, lift_eq hmemory] at hsole
    rw [Store.create, either, lift_eq hdurable]
    have hc' : m'.connected = true := by
      have hrun := MemoryStore.create_run (s := { connected := true, nextId := n }) rfl r
      exact congrArg (fun p => p.2.connected) (hmemory.symm.trans hrun)
    refine ⟨fun id => (hagrees'.read id).trans (hsole.read id), ?_⟩
    have hlisted := hsole.listed
    rw [list, either, lift_eq (MemoryStore.list_run hc' true)] at hlisted
    rw [list, either, lift_eq (hagrees'.list hc' true)]
    exact hlisted

end Store

end Lineage
