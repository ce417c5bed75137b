/-
  Lineage.Proofs.Store.Deposits

  What can be read of an object in a store, path by path.

  A durable store keeps the texts of what it is given, and a text may be read as something
  else, or not at all (`Content.kept`).  So what is written is followed at each path of an
  object (`Store.deposit`), where it can also be said of an object that cannot be given as a
  whole.

  A sound store (`Store.Sound`) has nothing but texts of its own in its tables; it makes no
  difference whether they can be read.  The write of the changed paths of a copy brings an
  object to what the copy has at just these paths (`Store.Sound.update_written`).  A record
  is given for an object if, and only if, it is what can be read at every path
  (`Store.Sound.read_eq_some`); where nothing can be read at one of them none is given
  (`Store.Sound.read_error`).
-/
import Lineage.Proofs.Record.Paths
import Lineage.Proofs.Store.Legibility

namespace Lineage

open DurableStore (entryKey)

-- Eight bytes are not to be computed with.
attribute [local irreducible] ObjectId.bytes

/-! ## Contents -/

/-- What can be read of a content after it has been written. -/
def Content.kept (durable : Bool) : Content → Option Content
  | .property (some v) =>
    if durable then (Json.readValue (Json.writeValue v)).map fun v => .property (some v)
    else some (.property (some v))
  | c => some c

/-- Nothing is written in memory. -/
theorem Content.kept_memory (c : Content) : c.kept false = some c := by
  rcases c with ⟨_, _⟩ | (_ | _) | _ <;> rfl

/-- What survives can be read as it was. -/
theorem Record.kept_content {durable : Bool} {r : Record}
    (h : durable = true → ∀ e ∈ r.properties.entries, e.2.Survives) (p : Path) :
    (r.content p).kept durable = some (r.content p) := by
  cases durable with
  | false => exact Content.kept_memory _
  | true =>
    cases p with
    | header => rfl
    | method name => rfl
    | property name =>
      rw [content]
      cases hv : r.properties.get? name with
      | none => rfl
      | some v =>
        have hsurvives : v.Survives := h rfl (name, v) (Dict.mem_of_get? hv)
        rw [Content.kept, if_pos rfl, show Json.readValue (Json.writeValue v) = some v from hsurvives]
        rfl

/-- What can be read of an object that is stored. -/
structure Deposit where
  id : ObjectId
  created : Timestamp
  modified : Timestamp
  /-- What is read at each path, if it can be read there. -/
  part : Path → Option Content

namespace Deposit

/-- All of an object can be read, and makes this record. -/
structure Reads (d : Deposit) (r : Record) : Prop where
  id : d.id = r.id
  created : d.created = r.created
  modified : d.modified = r.modified
  part : ∀ p, d.part p = some (r.content p)

theorem Reads.unique {d : Deposit} {r s : Record} (hr : d.Reads r) (hs : d.Reads s) : r = s :=
  Record.ext_content (hr.id.symm.trans hs.id) (hr.created.symm.trans hs.created)
    (hr.modified.symm.trans hs.modified) fun p => Option.some.inj ((hr.part p).symm.trans (hs.part p))

end Deposit

/-- From `old` to `new` the paths in `changed` have come to what `source` has there, and no others
have changed. -/
structure Written (durable : Bool) (changed : Path → Prop) (source : Record) (old new : Deposit) :
    Prop where
  id : new.id = old.id
  created : new.created = old.created
  modified : new.modified = source.modified
  there : ∀ p, changed p → new.part p = (source.content p).kept durable
  elsewhere : ∀ p, ¬ changed p → new.part p = old.part p

/-! ## Entries of tables -/

namespace DurableStore

variable {α : Type} {t : Table}

theorem ordered_writeEntries (id : ObjectId) (write : α → Json) (changes : Dict String (Option α))
    (ht : t.Ordered) : (writeEntries id write changes t).Ordered := by
  induction changes generalizing t with
  | nil => exact ht
  | cons change changes ih =>
    obtain ⟨name, _ | a⟩ := change
    · exact ih (ht.remove _)
    · exact ih (ht.put _ _)

/-- The names in a set get the texts of what a dictionary has under them. -/
theorem get?_writeEntries_current (id : ObjectId) (write : α → Json) (names : NameSet)
    (d : OrderedDict String α) (ht : t.Ordered) (name : String) :
    (writeEntries id write (Copy.current names d.entries) t).get? (entryKey id name) =
      if names.has name then (d.get? name).map fun a => (write a).write
      else t.get? (entryKey id name) := by
  have hkey {changed : String} : entryKey id name = entryKey id changed ↔ name = changed :=
    entryKey_inj.trans (and_iff_right rfl)
  refine Copy.foldl_current (I := Dict.Ordered) (f := (Dict.get? · (entryKey id name))) name
    (fun t change ht => ?_) (fun t changed a ht => ?_) d.entries names ht
  · exact ordered_writeEntries id write [change] ht
  · cases a with
    | some a => simp only [Dict.get?_put, hkey, Option.map_some]
    | none => simp only [Dict.get?_remove ht, hkey, Option.map_none]

/-- What is read where a text may be missing. -/
def readText (read : Json → Option α) : Option String → Option (Option α)
  | none => some none
  | some text => ((Json.read text).bind read).map some

/-- What has been collected of an object is what the texts under its keys are read as. -/
theorem owned_spec {id : ObjectId} {read : Json → Option α}
    (hkeys : ∀ e ∈ t, ∃ id name, e.1 = entryKey id name) {d : OrderedDict String α}
    (h : owned id read t = .ok d) : ∃ found, d = .ofList found ∧
      (∀ x ∈ found, ∃ text, (entryKey id x.1, text) ∈ t ∧ (Json.read text).bind read = some x.2) ∧
      ∀ name text, (entryKey id name, text) ∈ t →
        ∃ a, (name, a) ∈ found ∧ (Json.read text).bind read = some a := by
  obtain ⟨found, rfl, hread, heach⟩ := Spreads.owned_ok h
  refine ⟨found, rfl, fun x hx => ?_, fun name text hmem => ?_⟩
  · obtain ⟨⟨key, text⟩, he, hname, htext⟩ := hread x hx
    obtain ⟨hmem, hprefix⟩ := List.mem_filter.mp he
    -- The key of an entry says whose it is and what it is called.
    obtain ⟨owner, name, rfl⟩ : ∃ owner name, key = entryKey owner name := hkeys _ hmem
    obtain rfl := prefix_entryKey_iff.mp (isPrefixOf_iff.mp hprefix)
    rw [entryName?_entryKey] at hname
    obtain rfl := Option.some.inj hname
    exact ⟨text, hmem, htext⟩
  · have hchosen : (entryKey id name, text) ∈ t.filter fun e => id.bytes.isPrefixOf e.1 :=
      List.mem_filter.mpr ⟨hmem, isPrefixOf_iff.mpr (prefix_entryKey_iff.mpr rfl)⟩
    obtain ⟨⟨name', a⟩, hx, hname, htext⟩ := heach _ hchosen
    rw [entryName?_entryKey] at hname
    obtain rfl := Option.some.inj hname
    exact ⟨a, hx, htext⟩

/-- Under each name an object has what the text under that name is read as. -/
theorem get?_owned {id : ObjectId} {read : Json → Option α} (ht : t.Ordered)
    (hkeys : ∀ e ∈ t, ∃ id name, e.1 = entryKey id name) {d : OrderedDict String α}
    (h : owned id read t = .ok d) (name : String) :
    readText read (t.get? (entryKey id name)) = some (d.get? name) := by
  obtain ⟨found, rfl, hread, heach⟩ := owned_spec hkeys h
  have hget : (OrderedDict.ofList found).get? name =
      (t.get? (entryKey id name)).bind fun text => (Json.read text).bind read := by
    refine Dict.get?_ofList (f := fun name => (t.get? (entryKey id name)).bind fun text =>
      (Json.read text).bind read) (fun x hx => ?_) (fun name a ha => ?_) name
    · obtain ⟨text, hmem, ha⟩ := hread x hx
      rw [Dict.get?_of_mem ht hmem]
      exact ha
    · obtain ⟨text, htext, ha⟩ := Option.bind_eq_some_iff.mp ha
      obtain ⟨a', hmem, ha'⟩ := heach name text (Dict.mem_of_get? htext)
      rw [ha] at ha'
      obtain rfl := Option.some.inj ha'
      exact hmem
  rw [hget]
  cases htext : t.get? (entryKey id name) with
  | none => rfl
  | some text =>
    obtain ⟨a, -, ha⟩ := heach name text (Dict.mem_of_get? htext)
    rw [readText, Option.bind_some, ha]
    rfl

/-- What can be read at each path of an object with this header. -/
def part (s : DurableStore) (h : Header) : Path → Option Content
  | .header => some (.header h.parent h.recycled)
  | .property name =>
    (readText (Json.value? Json.maxDepth) (s.properties.get? (entryKey h.id name))).map .property
  | .method name =>
    (readText (Json.method? Json.maxDepth) (s.methods.get? (entryKey h.id name))).map .method

/-- What is written of a content is read back as it is kept. -/
theorem readText_value (found : Option Value) :
    (readText (Json.value? Json.maxDepth) (found.map fun v => (Json.ofValue v).write)).map .property =
      (Content.property found).kept true := by
  cases found with
  | none => rfl
  | some v =>
    rw [Content.kept, if_pos rfl, Json.readValue, Json.writeValue, Option.map_some, readText, Option.map_map]
    rfl

/-- Methods are always read back. -/
theorem readText_method (found : Option MethodDef) :
    (readText (Json.method? Json.maxDepth) (found.map fun m => (Json.ofMethod m).write)).map .method =
      (Content.method found).kept true := by
  cases found with
  | none => rfl
  | some m =>
    have hread := Json.readMethod_writeMethod m
    rw [Json.readMethod, Json.writeMethod] at hread
    rw [Option.map_some, readText, hread]
    rfl

/-- The tables after the write of a copy, for one object. -/
structure Rewritten (s t : DurableStore) (id : ObjectId) (c : Copy) : Prop where
  properties : t.properties =
    writeEntries id Json.ofValue (Copy.current c.dirty.properties c.record.properties.entries) s.properties
  methods : t.methods =
    writeEntries id Json.ofMethod (Copy.current c.dirty.methods c.record.methods.entries) s.methods
  propertyOrder : s.properties.Ordered
  methodOrder : s.methods.Ordered

theorem Rewritten.part_marked {s t : DurableStore} {h : Header} {c : Copy}
    (hwritten : Rewritten s t h.id c) (now : Timestamp) {p : Path} (hmarks : c.dirty.Marks p) :
    t.part (h.apply (c.update now)) p = (c.record.content p).kept true := by
  cases p with
  | header =>
    have hheader : c.dirty.header = true := hmarks
    simp only [part, Header.apply, Copy.update, hheader, if_true, Option.getD_some]
    rfl
  | property name =>
    have hname : c.dirty.properties.has name = true := hmarks
    show (readText _ (t.properties.get? (entryKey h.id name))).map _ = _
    rw [hwritten.properties, get?_writeEntries_current _ _ _ _ hwritten.propertyOrder, if_pos hname]
    exact readText_value _
  | method name =>
    have hname : c.dirty.methods.has name = true := hmarks
    show (readText _ (t.methods.get? (entryKey h.id name))).map _ = _
    rw [hwritten.methods, get?_writeEntries_current _ _ _ _ hwritten.methodOrder, if_pos hname]
    exact readText_method _

theorem Rewritten.part_unmarked {s t : DurableStore} {h : Header} {c : Copy}
    (hwritten : Rewritten s t h.id c) (now : Timestamp) {p : Path} (hmarks : ¬ c.dirty.Marks p) :
    t.part (h.apply (c.update now)) p = s.part h p := by
  cases p with
  | header =>
    have hheader : c.dirty.header = false := Bool.eq_false_iff.mpr hmarks
    simp only [part, Header.apply, Copy.update, hheader, Bool.false_eq_true, if_false, Option.getD_none]
  | property name =>
    have hname : ¬ c.dirty.properties.has name = true := hmarks
    show (readText _ (t.properties.get? (entryKey h.id name))).map _ = _
    rw [hwritten.properties, get?_writeEntries_current _ _ _ _ hwritten.propertyOrder, if_neg hname]
    rfl
  | method name =>
    have hname : ¬ c.dirty.methods.has name = true := hmarks
    show (readText _ (t.methods.get? (entryKey h.id name))).map _ = _
    rw [hwritten.methods, get?_writeEntries_current _ _ _ _ hwritten.methodOrder, if_neg hname]
    rfl

/-- A record is read by what can be read at each path. -/
theorem reads_record {s : DurableStore} (hs : s.Own) (hproperties : s.properties.Ordered)
    (hmethods : s.methods.Ordered) {h : Header} {r : Record} (hr : s.record h = .ok r) :
    Deposit.Reads ⟨h.id, h.created, h.modified, s.part h⟩ r := by
  obtain ⟨properties, methods, hp, hm, rfl⟩ := record_ok hr
  have hvalue := get?_owned hproperties (fun e he => ?_) hp
  have hmethod := get?_owned hmethods (fun e he => ?_) hm
  · refine ⟨rfl, rfl, rfl, fun p => ?_⟩
    cases p with
    | header => rfl
    | property name => exact congrArg (Option.map _) (hvalue name)
    | method name => exact congrArg (Option.map _) (hmethod name)
  · obtain ⟨id, name, m, rfl⟩ := hs.methods e he
    exact ⟨id, name, rfl⟩
  · obtain ⟨id, name, v, rfl⟩ := hs.values e he
    exact ⟨id, name, rfl⟩

end DurableStore

/-! ## Deposits -/

/-- All of a record, as it is in memory. -/
def Record.deposit (r : Record) : Deposit := ⟨r.id, r.created, r.modified, fun p => some (r.content p)⟩

namespace Store

/-- What can be read of an object, if it is stored. -/
def deposit : Store → ObjectId → Option Deposit
  | .memory s, id => (s.records.get? id).map Record.deposit
  | .durable s, id =>
    match s.header id with
    | .ok (some h) => some ⟨h.id, h.created, h.modified, s.part h⟩
    | _ => none

theorem deposit_of_text {s : DurableStore} {h : Header} (ht : h.Timed)
    (htext : s.objects.get? h.id.bytes = some h.toJson.write) :
    (Store.durable s).deposit h.id = some ⟨h.id, h.created, h.modified, s.part h⟩ := by
  rw [deposit, DurableStore.header_of_text ht htext]

/-- Records stand under their ids in memory, and a durable store has none but texts of its own. -/
def Sound : Store → Prop
  | .memory s => s.Faithful
  | .durable s => s.Own ∧ s.properties.Ordered ∧ s.methods.Ordered

variable {s t : Store}

theorem Same.deposit (h : Same s t) : s.deposit = t.deposit :=
  h.congr fun s => by cases s <;> rfl

theorem Same.sound (h : Same s t) (hs : s.Sound) : t.Sound :=
  (h.congr (f := Sound) fun s => by cases s <;> rfl).mp hs

theorem isDurable_update (id : ObjectId) (u : Update) (s : Store) :
    (update id u s).2.isDurable = s.isDurable := by
  cases s <;> rfl

theorem isConnected_update (id : ObjectId) (u : Update) (s : Store) :
    (update id u s).2.isConnected = s.isConnected := by
  by_cases hc : s.isConnected = true
  · cases s with
    | memory s =>
      rw [update, either, lift_eq (MemoryStore.update_run hc id u)]
      cases s.records.get? id <;> rfl
    | durable s =>
      rw [update, either, lift_eq (DurableStore.update_run hc id u)]
      rcases s.header id with _ | _ | _ <;> rfl
  · rw [update_offline (Bool.not_eq_true _ ▸ hc)]

/-- An object that is not stored cannot be written. -/
theorem update_missing (hs : s.Sound) (hc : s.isConnected = true) {id : ObjectId}
    (hd : s.deposit id = none) (u : Update) : update id u s = (.error (.objectNotFound id), s) := by
  cases s with
  | memory s =>
    rw [update, either, lift_eq (MemoryStore.update_run hc id u), Option.map_eq_none_iff.mp hd]
  | durable s =>
    rw [update, either, lift_eq (DurableStore.update_run hc id u)]
    rcases hs.1.header id with ⟨-, hheader⟩ | ⟨h, -, -, hheader⟩
    · rw [hheader]
    · rw [deposit, hheader] at hd
      cases hd

namespace Sound

theorem own (hs : s.Sound) : s.Own := by
  cases s with
  | memory s => trivial
  | durable s => exact hs.1

/-- Texts that are written are the store's own. -/
theorem update (hs : s.Sound) (id : ObjectId) {u : Update} (hu : s.isDurable = true → u.Timed) :
    (update id u s).2.Sound := by
  cases s with
  | memory s => exact MemoryStore.Faithful.update hs id u
  | durable s =>
    by_cases hc : s.connected = true
    · have hown := Own.update (s := .durable s) hs.own id (hu rfl)
      rw [Store.update, either, lift_eq (DurableStore.update_run hc id u)] at hown ⊢
      rcases hheader : s.header id with e | _ | h
      · exact hs
      · exact hs
      · rw [hheader] at hown
        exact ⟨hown, DurableStore.ordered_writeEntries _ _ _ hs.2.1,
          DurableStore.ordered_writeEntries _ _ _ hs.2.2⟩
    · rw [update_offline (s := .durable s) (Bool.not_eq_true _ ▸ hc)]
      exact hs

/-- The write of a copy brings its object to what the copy has at the marked paths, whatever can be
read there, and leaves it as it is at all others. -/
theorem update_written (hs : s.Sound) (hc : s.isConnected = true) {id : ObjectId} {old : Deposit}
    (hd : s.deposit id = some old) (c : Copy) {now : Timestamp} (hnow : s.isDurable = true → now.Valid) :
    (Store.update id (c.update now) s).1 = .ok () ∧
      ∃ new, (Store.update id (c.update now) s).2.deposit id = some new ∧
        Written s.isDurable c.dirty.Marks (c.written now).record old new := by
  cases s with
  | memory s =>
    obtain ⟨r, hr, rfl⟩ := Option.map_eq_some_iff.mp hd
    rw [Store.update, either, lift_eq (MemoryStore.update_run hc id (c.update now)), hr]
    refine ⟨rfl, ((c.update now).applyTo r).deposit, ?_, rfl, rfl, rfl, fun p hp => ?_, fun p hp => ?_⟩
    · show ((s.records.put id _).get? id).map Record.deposit = _
      rw [Dict.get?_put_self]
      rfl
    · rw [isDurable, Content.kept_memory]
      exact congrArg some (c.content_update_marked now r hp)
    · exact congrArg some (c.content_update_unmarked now r hp)
  | durable s =>
    obtain ⟨hown, hproperties, hmethods⟩ := hs
    rcases hown.header id with ⟨-, hheader⟩ | ⟨h, htimed, rfl, hheader⟩
    · rw [deposit, hheader] at hd
      cases hd
    · rw [deposit, hheader] at hd
      obtain rfl := Option.some.inj hd
      have htimed' : (h.apply (c.update now)).Timed :=
        DurableStore.timed_apply htimed fun t ht => Option.some.inj ht ▸ hnow rfl
      rw [Store.update, either, lift_eq (DurableStore.update_run hc h.id (c.update now)), hheader]
      have htouches : (c.update now).touchesHeader = true := by
        simp only [Update.touchesHeader, Copy.update, Option.isSome_some, Bool.or_true]
      -- The header is written in every case, for it has the time.
      simp only [htouches, if_true, true_and]
      refine ⟨_, deposit_of_text (h := h.apply (c.update now)) htimed' (Dict.get?_put_self _ _ _),
        rfl, rfl, rfl, fun p hp => ?_, fun p hp => ?_⟩
      · exact DurableStore.Rewritten.part_marked ⟨rfl, rfl, hproperties, hmethods⟩ now hp
      · exact DurableStore.Rewritten.part_unmarked ⟨rfl, rfl, hproperties, hmethods⟩ now hp

/-! ## Reading -/

theorem read_eq_none (hs : s.Sound) {id : ObjectId} : s.read id = .ok none ↔ s.deposit id = none := by
  rw [Store.read_eq_none hs.own]
  cases s with
  | memory s => exact Option.map_eq_none_iff.trans Option.map_eq_none_iff.symm
  | durable s =>
    rw [place, deposit]
    rcases s.header id with _ | _ | _ <;> exact ⟨fun h => by cases h <;> rfl, fun h => by cases h <;> rfl⟩

/-- The record that is given is what can be read at every path. -/
theorem reads (hs : s.Sound) {id : ObjectId} {r : Record} (hr : s.read id = .ok (some r)) :
    ∃ d, s.deposit id = some d ∧ d.id = id ∧ d.Reads r := by
  cases s with
  | memory s =>
    have hget : s.records.get? id = some r := Except.ok.inj hr
    refine ⟨r.deposit, ?_, hs _ (Dict.mem_of_get? hget), rfl, rfl, rfl, fun _ => rfl⟩
    rw [deposit, hget]
    rfl
  | durable s =>
    obtain ⟨hown, hproperties, hmethods⟩ := hs
    obtain ⟨h, hheader, hrecord⟩ := DurableStore.read_some.mp hr
    obtain rfl : h.id = id := by
      rcases hown.header id with ⟨-, hnone⟩ | ⟨h', -, hid, hsome⟩
      · rw [hheader] at hnone
        cases hnone
      · rw [hheader] at hsome
        cases hsome
        exact hid
    refine ⟨⟨h.id, h.created, h.modified, s.part h⟩, ?_, rfl, ?_⟩
    · rw [deposit, hheader]
    · exact DurableStore.reads_record hown hproperties hmethods hrecord

/-- If nothing is given for an object there is a path at which nothing can be read. -/
theorem read_error (hs : s.Sound) {id : ObjectId} {e : StoreError} (he : s.read id = .error e) :
    ∃ d p, s.deposit id = some d ∧ d.part p = none := by
  obtain ⟨hblot, -⟩ := (read_error_iff hs.own id e).mp he
  cases s with
  | memory s => exact hblot.elim
  | durable s =>
    obtain ⟨hown, hproperties, -⟩ := hs
    obtain ⟨hplace, name, v, hmem, hv⟩ := hblot
    rcases hown.header id with ⟨-, hheader⟩ | ⟨h, -, rfl, hheader⟩
    · rw [place, hheader] at hplace
      exact absurd rfl hplace
    · refine ⟨⟨h.id, h.created, h.modified, s.part h⟩, .property name, ?_, ?_⟩
      · rw [deposit, hheader]
      · show (DurableStore.readText _ (s.properties.get? (entryKey h.id name))).map _ = none
        have hnone : Json.readValue (Json.writeValue v) = none := Classical.not_not.mp hv
        rw [Json.readValue] at hnone
        rw [Dict.get?_of_mem hproperties hmem, DurableStore.readText, hnone]
        rfl

/-- A record is given for an object just if it is what can be read at every path. -/
theorem read_eq_some (hs : s.Sound) {id : ObjectId} {r : Record} :
    s.read id = .ok (some r) ↔ ∃ d, s.deposit id = some d ∧ d.Reads r := by
  constructor
  · intro hr
    obtain ⟨d, hd, -, hreads⟩ := hs.reads hr
    exact ⟨d, hd, hreads⟩
  · rintro ⟨d, hd, hreads⟩
    rcases hread : s.read id with e | _ | r'
    · obtain ⟨d', p, hd', hp⟩ := hs.read_error hread
      rw [hd] at hd'
      cases hd'
      rw [hreads.part p] at hp
      cases hp
    · rw [hs.read_eq_none.mp hread] at hd
      cases hd
    · obtain ⟨d', hd', -, hreads'⟩ := hs.reads hread
      rw [hd] at hd'
      cases hd'
      rw [hreads.unique hreads']

end Sound

end Store

end Lineage
