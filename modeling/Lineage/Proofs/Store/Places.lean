/-
  Lineage.Proofs.Store.Places

  Where stored objects stand: their parents, and whether they are recycled.

  A durable store reads this off the texts of headers.  As long as nothing but what it has
  written itself stands in its tables (`Store.Own`), every header can be read, whatever
  may have become of properties; so an update succeeds whenever its object is there
  (`update_ok`), and changes the place of that object as it says (`place_update`).

  A listing that succeeds gives the stored objects that are wanted, by increasing number
  (`Store.list_ids`).  A durable store lists by keys, and the order of keys is that of
  numbers only as long as no number is negative.
-/
import Lineage.Proofs.Store.Frame

namespace Lineage

-- Eight bytes are not to be computed with.
attribute [local irreducible] ObjectId.bytes

/-- Whose child an object is, and whether it is recycled. -/
structure Place where
  parent : ObjectId
  recycled : Bool
  deriving DecidableEq

namespace Place

def ofRecord (r : Record) : Place := ⟨r.parent, r.recycled⟩

/-- The place after an update. -/
def apply (p : Place) (u : Update) : Place := ⟨u.parent.getD p.parent, u.recycled.getD p.recycled⟩

/-- An update that names neither parent nor flag leaves an object where it is. -/
theorem apply_unmoved (p : Place) {u : Update} (hparent : u.parent = none) (hrecycled : u.recycled = none) :
    p.apply u = p := by
  rw [apply, hparent, hrecycled]
  rfl

end Place

/-- An update that writes nothing of a header names neither parent nor flag. -/
theorem Update.unmoved_of_untouched {u : Update} (h : ¬u.touchesHeader = true) :
    u.parent = none ∧ u.recycled = none := by
  simp only [Update.touchesHeader, Bool.or_eq_true, not_or, Bool.not_eq_true,
    Option.isSome_eq_false_iff, Option.isNone_iff_eq_none] at h
  exact h.1

/-- The times of an update are moments. -/
def Update.Timed (u : Update) : Prop := ∀ t, u.modified = some t → t.Valid

namespace DurableStore

variable {s : DurableStore}

/-! ## Texts of its own -/

/-- Every text was written by the store itself, under the key where it belongs. -/
structure Own (s : DurableStore) : Prop where
  headers : ∀ e ∈ s.objects, ∃ h : Header, h.Timed ∧ e = (h.id.bytes, h.toJson.write)
  values : ∀ e ∈ s.properties, ∃ id name v, e = (entryKey id name, (Json.ofValue v).write)
  methods : ∀ e ∈ s.methods, ∃ id name m, e = (entryKey id name, (Json.ofMethod m).write)

theorem Own.nil : Own {} := ⟨nofun, nofun, nofun⟩

/-- A header is read off its text. -/
theorem header_of_text {h : Header} (ht : h.Timed)
    (htext : s.objects.get? h.id.bytes = some h.toJson.write) : s.header h.id = .ok (some h) := by
  rw [header, htext]
  dsimp only
  rw [decode, Header.read_write ht]
  rfl

theorem header_congr {t : DurableStore} {id : ObjectId}
    (hobjects : t.objects.get? id.bytes = s.objects.get? id.bytes) : t.header id = s.header id := by
  rw [header, header, hobjects]

/-- The times of a header that can be read are moments. -/
theorem header_timed {id : ObjectId} {h : Header} (hh : s.header id = .ok (some h)) : h.Timed := by
  unfold DurableStore.header at hh
  split at hh
  · cases hh
  · rename_i text _
    cases hd : decode id Header.ofJson? text with
    | error e => rw [hd] at hh; cases hh
    | ok found =>
      rw [hd] at hh
      cases hh
      obtain ⟨j, -, hj⟩ := Option.bind_eq_some_iff.mp (decode_ok hd)
      exact Header.timed_of_ofJson? hj

/-- The header of an object can be read. -/
theorem Own.header (hs : s.Own) (id : ObjectId) :
    (s.objects.get? id.bytes = none ∧ s.header id = .ok none) ∨
      ∃ h : Header, h.Timed ∧ h.id = id ∧ s.header id = .ok (some h) := by
  cases htext : s.objects.get? id.bytes with
  | none => exact .inl ⟨rfl, by rw [DurableStore.header, htext]⟩
  | some text =>
    obtain ⟨h, ht, he⟩ := hs.headers _ (Dict.mem_of_get? htext)
    obtain ⟨hkey, rfl⟩ := Prod.mk.inj he
    obtain rfl := bytes_inj hkey
    exact .inr ⟨h, ht, rfl, header_of_text ht htext⟩

theorem own_writeEntries {α : Type} {write : α → Json} {t : Table}
    (ht : ∀ e ∈ t, ∃ id name a, e = (entryKey id name, (write a).write)) (id : ObjectId)
    (changes : Dict String (Option α)) :
    ∀ e ∈ writeEntries id write changes t, ∃ id name a, e = (entryKey id name, (write a).write) := by
  induction changes generalizing t with
  | nil => exact ht
  | cons change changes ih =>
    obtain ⟨name, _ | a⟩ := change
    · exact ih fun e he => ht e (Dict.mem_remove he)
    · refine ih fun e he => ?_
      rcases Dict.mem_put he with rfl | he
      · exact ⟨id, name, a, rfl⟩
      · exact ht e he

theorem own_put {h : Header} (ht : h.Timed) {t : Table}
    (hs : ∀ e ∈ t, ∃ h : Header, h.Timed ∧ e = (h.id.bytes, h.toJson.write)) :
    ∀ e ∈ t.put h.id.bytes h.toJson.write, ∃ h : Header, h.Timed ∧ e = (h.id.bytes, h.toJson.write) := by
  intro e he
  rcases Dict.mem_put he with rfl | he
  · exact ⟨h, ht, rfl⟩
  · exact hs e he

theorem timed_apply {h : Header} (ht : h.Timed) {u : Update} (hu : u.Timed) : (h.apply u).Timed := by
  refine ⟨ht.created, ?_⟩
  show (u.modified.getD h.modified).Valid
  cases hmodified : u.modified with
  | none => exact ht.modified
  | some t => exact hu t hmodified

end DurableStore

namespace Store

variable {s t : Store}

/-- Every text of a durable store is its own. -/
def Own : Store → Prop
  | .memory _ => True
  | .durable s => s.Own

theorem Same.own (h : Same s t) : s.Own ↔ t.Own :=
  Iff.of_eq (h.congr (f := Own) fun s => by cases s <;> rfl)

theorem Own.connect (hs : s.Own) : (Store.connect s).2.Own := by
  cases s with
  | memory s => trivial
  | durable s => exact ⟨hs.headers, hs.values, hs.methods⟩

theorem Own.disconnect (hs : s.Own) : (Store.disconnect s).2.Own := by
  cases s with
  | memory s => trivial
  | durable s => exact ⟨hs.headers, hs.values, hs.methods⟩

theorem Own.update (hs : s.Own) (id : ObjectId) {u : Update} (hu : u.Timed) :
    (Store.update id u s).2.Own := by
  by_cases hc : s.isConnected = true
  · cases s with
    | memory s =>
      rw [Store.update, either, lift_eq (MemoryStore.update_run hc id u)]
      cases s.records.get? id <;> trivial
    | durable s =>
      have hown : s.Own := hs
      rw [Store.update, either, lift_eq (DurableStore.update_run hc id u)]
      rcases hown.header id with ⟨-, hheader⟩ | ⟨h, ht, rfl, hheader⟩
      · rw [hheader]
        exact hs
      · rw [hheader]
        refine ⟨?_, DurableStore.own_writeEntries hown.values _ _,
          DurableStore.own_writeEntries hown.methods _ _⟩
        dsimp only
        split
        · exact DurableStore.own_put (h := h.apply u) (DurableStore.timed_apply ht hu) hown.headers
        · exact hown.headers
  · rw [update_offline (Bool.not_eq_true _ ▸ hc)]
    exact hs

theorem Own.create (hs : s.Own) {r : Record} (hcreated : r.created.Valid)
    (hmodified : r.modified.Valid) : (Store.create r s).2.Own := by
  by_cases hc : s.isConnected = true
  · cases s with
    | memory s =>
      rw [Store.create, either, lift_eq (MemoryStore.create_run hc r)]
      trivial
    | durable s =>
      have hown : s.Own := hs
      rw [Store.create, either, lift_eq (DurableStore.create_run hc r)]
      cases DurableStore.sequenceValue s.sequence with
      | error e => exact hs
      | ok n =>
        exact ⟨DurableStore.own_put (h := Header.ofRecord { r with id := ⟨n⟩ }) ⟨hcreated, hmodified⟩
          hown.headers, DurableStore.own_writeEntries hown.values _ _,
          DurableStore.own_writeEntries hown.methods _ _⟩
  · rw [create_offline (Bool.not_eq_true _ ▸ hc)]
    exact hs

/-! ## Places -/

/-- Where an object stands, if it is stored. -/
def place : Store → ObjectId → Option Place
  | .memory s, id => (s.records.get? id).map Place.ofRecord
  | .durable s, id =>
    match s.header id with
    | .ok (some h) => some ⟨h.parent, h.recycled⟩
    | _ => none

theorem Same.place (h : Same s t) : s.place = t.place :=
  h.congr fun s => by cases s <;> rfl

/-- A record that is read says where its object stands. -/
theorem place_of_read {id : ObjectId} {r : Record} (hr : s.read id = .ok (some r)) :
    s.place id = some (Place.ofRecord r) := by
  cases s with
  | memory s => exact congrArg (Option.map Place.ofRecord) (Except.ok.inj hr)
  | durable s =>
    obtain ⟨h, hheader, hrecord⟩ := DurableStore.read_some.mp hr
    obtain ⟨properties, methods, -, -, rfl⟩ := DurableStore.record_ok hrecord
    rw [place, hheader]
    rfl

/-- Nothing is read of an object that is not stored. -/
theorem read_eq_none (hs : s.Own) {id : ObjectId} : s.read id = .ok none ↔ s.place id = none := by
  cases s with
  | memory s =>
    show Except.ok _ = _ ↔ Option.map _ _ = none
    rw [Option.map_eq_none_iff]
    exact ⟨Except.ok.inj, congrArg _⟩
  | durable s =>
    have hown : s.Own := hs
    rw [show (Store.durable s).read id = s.read id from rfl, DurableStore.read_none, place]
    rcases hown.header id with ⟨-, hheader⟩ | ⟨h, ht, rfl, hheader⟩
    · rw [hheader]
      exact ⟨fun _ => rfl, fun _ => rfl⟩
    · rw [hheader]
      exact ⟨nofun, fun hplace => absurd hplace (Option.some_ne_none _)⟩

/-- An update of a stored object succeeds. -/
theorem update_ok (hs : s.Own) (hc : s.isConnected = true) {id : ObjectId}
    (hid : s.place id ≠ none) (u : Update) : (update id u s).1 = .ok () := by
  cases s with
  | memory s =>
    rw [update, either, lift_eq (MemoryStore.update_run hc id u)]
    cases hr : s.records.get? id with
    | none =>
      rw [place, hr] at hid
      exact absurd rfl hid
    | some r => rfl
  | durable s =>
    have hown : s.Own := hs
    rw [update, either, lift_eq (DurableStore.update_run hc id u)]
    rcases hown.header id with ⟨-, hheader⟩ | ⟨h, -, -, hheader⟩
    · rw [place, hheader] at hid
      exact absurd rfl hid
    · rw [hheader]

/-- A header that is written says where its object stands. -/
theorem place_put {s t : DurableStore} {h : Header} (ht : h.Timed) {id : ObjectId} (hid : h.id = id)
    (hobjects : t.objects = s.objects.put id.bytes h.toJson.write) (other : ObjectId) :
    (Store.durable t).place other =
      if other = id then some ⟨h.parent, h.recycled⟩ else (Store.durable s).place other := by
  subst hid
  split
  · rename_i hother
    have hget : t.objects.get? h.id.bytes = some h.toJson.write := by
      rw [hobjects, Dict.get?_put_self]
    rw [hother, place, DurableStore.header_of_text ht hget]
  · rename_i hother
    have hget : t.objects.get? other.bytes = s.objects.get? other.bytes := by
      rw [hobjects, Dict.get?_put_ne _ _ fun hb => hother (DurableStore.bytes_inj hb)]
    rw [place, place, DurableStore.header_congr hget]

/-- An update of an object that stands somewhere succeeds and moves it as it says, also where not all
texts are the store's own. -/
theorem place_written (hs : s.Faithful) (hc : s.isConnected = true) {id : ObjectId} {p : Place}
    (hp : s.place id = some p) {u : Update} (hu : u.Timed) :
    (update id u s).1 = .ok () ∧ (update id u s).2.place id = some (p.apply u) := by
  cases s with
  | memory s =>
    obtain ⟨r, hr, rfl⟩ := Option.map_eq_some_iff.mp hp
    rw [update, either, lift_eq (MemoryStore.update_run hc id u), hr]
    refine ⟨rfl, ?_⟩
    show ((s.records.put id (u.applyTo r)).get? id).map Place.ofRecord = _
    rw [Dict.get?_put_self]
    rfl
  | durable s =>
    have hplace := hp
    rw [place] at hp
    rw [update, either, lift_eq (DurableStore.update_run hc id u)]
    rcases hheader : s.header id with e | _ | h
    · rw [hheader] at hp; cases hp
    · rw [hheader] at hp; cases hp
    rw [hheader] at hp
    obtain rfl := Option.some.inj hp
    refine ⟨rfl, ?_⟩
    dsimp only
    have hid : h.id = id := DurableStore.header_id hs hheader
    by_cases htouches : u.touchesHeader = true
    · simp only [htouches, if_true]
      exact (place_put (s := s) (h := h.apply u)
        (DurableStore.timed_apply (DurableStore.header_timed hheader) hu) hid rfl id).trans (if_pos rfl)
    · have hunmoved := Update.unmoved_of_untouched htouches
      simp only [Bool.eq_false_iff.mpr htouches, Bool.false_eq_true, if_false]
      rw [Place.apply_unmoved _ hunmoved.1 hunmoved.2]
      exact hplace

/-- An update moves its object as it says, and no other. -/
theorem place_update (hs : s.Own) (hc : s.isConnected = true) (id : ObjectId) {u : Update}
    (hu : u.Timed) (other : ObjectId) : (update id u s).2.place other =
      if other = id then (s.place id).map fun p => p.apply u else s.place other := by
  cases s with
  | memory s =>
    rw [update, either, lift_eq (MemoryStore.update_run hc id u)]
    cases hr : s.records.get? id with
    | none =>
      have hplace : (Store.memory s).place id = none := by rw [place, hr]; rfl
      dsimp only
      split
      · rename_i hother
        rw [hother, hplace]
        rfl
      · rfl
    | some r =>
      show ((s.records.put id (u.applyTo r)).get? other).map Place.ofRecord = _
      rw [Dict.get?_put]
      split
      · rw [place, hr]
        rfl
      · rfl
  | durable s =>
    have hown : s.Own := hs
    rw [update, either, lift_eq (DurableStore.update_run hc id u)]
    -- Of the tables only the headers say where an object stands.
    rcases hown.header id with ⟨-, hheader⟩ | ⟨h, ht, rfl, hheader⟩
    · have hplace : (Store.durable s).place id = none := by rw [place, hheader]
      rw [hheader]
      dsimp only
      split
      · rename_i hother
        rw [hother, hplace]
        rfl
      · rfl
    · have hplace : (Store.durable s).place h.id = some ⟨h.parent, h.recycled⟩ := by
        rw [place, hheader]
      rw [hheader, hplace]
      dsimp only
      by_cases htouches : u.touchesHeader = true
      · simp only [htouches, if_true]
        exact place_put (h := h.apply u) (DurableStore.timed_apply ht hu) rfl rfl other
      · -- Neither parent nor flag are written, nor anything else of the header.
        have huntouched := Update.unmoved_of_untouched htouches
        simp only [Bool.eq_false_iff.mpr htouches, Bool.false_eq_true, if_false]
        by_cases hother : other = h.id
        · rw [if_pos hother, hother, Option.map_some, Place.apply_unmoved _ huntouched.1 huntouched.2]
          exact hplace
        · rw [if_neg hother]
          rfl

theorem place_update_ne (hs : s.Own) {id other : ObjectId} (hother : other ≠ id) {u : Update}
    (hu : u.Timed) : (update id u s).2.place other = s.place other := by
  by_cases hc : s.isConnected = true
  · rw [place_update hs hc id hu, if_neg hother]
  · rw [update_offline (Bool.not_eq_true _ ▸ hc)]

/-- An update that names neither parent nor flag moves nothing. -/
theorem place_update_unmoved (hs : s.Own) (id : ObjectId) {u : Update} (hu : u.Timed)
    (hparent : u.parent = none) (hrecycled : u.recycled = none) (other : ObjectId) :
    (update id u s).2.place other = s.place other := by
  by_cases hc : s.isConnected = true
  · rw [place_update hs hc id hu]
    split
    · rename_i hother
      rw [hother]
      cases s.place id with
      | none => rfl
      | some p => exact congrArg some (p.apply_unmoved hparent hrecycled)
    · rfl
  · rw [update_offline (Bool.not_eq_true _ ▸ hc)]

/-- What is stored stays stored. -/
theorem place_update_ne_none (hs : s.Own) (id : ObjectId) {u : Update} (hu : u.Timed)
    {other : ObjectId} (hother : s.place other ≠ none) : (update id u s).2.place other ≠ none := by
  by_cases hc : s.isConnected = true
  · rw [place_update hs hc id hu]
    split
    · rename_i heq
      rw [heq] at hother
      rwa [Ne, Option.map_eq_none_iff]
    · exact hother
  · rwa [update_offline (Bool.not_eq_true _ ▸ hc)]

/-- A new object stands where its record says. -/
theorem place_create (hc : s.isConnected = true) {n : Int64} (hn : s.next = .ok n) {r : Record}
    (hcreated : r.created.Valid) (hmodified : r.modified.Valid) (other : ObjectId) :
    (create r s).2.place other = if other = ⟨n⟩ then some (Place.ofRecord r) else s.place other := by
  cases s with
  | memory s =>
    cases hn
    rw [create, either, lift_eq (MemoryStore.create_run hc r)]
    show ((s.records.put ⟨s.nextId⟩ { r with id := ⟨s.nextId⟩ }).get? other).map Place.ofRecord = _
    rw [Dict.get?_put]
    split <;> rfl
  | durable s =>
    rw [create, either, lift_eq (DurableStore.create_run hc r)]
    rw [show DurableStore.sequenceValue s.sequence = .ok n from hn]
    dsimp only
    exact place_put (h := Header.ofRecord { r with id := ⟨n⟩ }) ⟨hcreated, hmodified⟩ rfl rfl other

end Store

/-! ## Listings -/

/-- Ids by increasing number, each once. -/
abbrev Increasing (ids : List ObjectId) : Prop := ids.Pairwise fun a b => compare a b = .lt

/-- Ids that are not negative are ordered as their bytes are. -/
theorem ObjectId.lt_of_bytes_lt {i j : ObjectId} (hj : 0 ≤ j.number.toInt)
    (h : compare i.bytes j.bytes = .lt) : compare i j = .lt := by
  cases hcompare : compare i j with
  | lt => rfl
  | eq =>
    obtain rfl := Std.LawfulEqOrd.eq_of_compare hcompare
    have hself : compare i.bytes i.bytes = .eq := Std.ReflCmp.compare_self
    rw [hself] at h
    cases h
  | gt =>
    have hbytes := ObjectId.compare_bytes hj (Std.OrientedCmp.lt_of_gt hcompare)
    rw [Std.OrientedCmp.gt_of_lt hbytes] at h
    cases h

/-- A record is left out of a listing just if it is not wanted. -/
theorem left_out_iff {recycledToo recycled : Bool} :
    (recycled && !recycledToo) = true ↔ ¬(recycledToo || !recycled) = true := by
  cases recycledToo <;> cases recycled <;> decide

namespace DurableStore

variable {s : DurableStore}

/-- The entry of a header in the table of objects. -/
def headerEntry (h : Header) : List UInt8 × String := (h.id.bytes, h.toJson.write)

/-- A listing goes from header to header, and leaves out those that are not wanted. -/
theorem Own.listFrom_ids (hs : s.Own) {recycledToo : Bool} {entries : Table}
    (hentries : ∀ e ∈ entries, e ∈ s.objects) {records : List Record}
    (hlist : s.listFrom recycledToo entries = .ok records) :
    ∃ headers : List Header, (∀ h ∈ headers, h.Timed) ∧ entries = headers.map headerEntry ∧
      records.map Record.id = (headers.filter fun h => recycledToo || !h.recycled).map Header.id := by
  induction entries generalizing records with
  | nil =>
    cases hlist
    exact ⟨[], nofun, rfl, rfl⟩
  | cons e rest ih =>
    obtain ⟨h, htimed, rfl⟩ := hs.headers e (hentries e List.mem_cons_self)
    have hrest := fun {records} => @ih (fun e he => hentries e (List.mem_cons_of_mem _ he)) records
    obtain ⟨id, h', more, hdecode, hmore, hlisted⟩ := listFrom_cons hlist
    obtain rfl : h' = h := Option.some.inj ((decode_ok hdecode).symm.trans (Header.read_write htimed))
    obtain ⟨headers, htimes, rfl, hids⟩ := hrest hmore
    refine ⟨h' :: headers, List.forall_mem_cons.mpr ⟨htimed, htimes⟩, rfl, ?_⟩
    rcases hlisted with ⟨hskip, rfl⟩ | ⟨hskip, r, hrecord, rfl⟩
    · rw [List.filter_cons, if_neg (left_out_iff.mp hskip)]
      exact hids
    · rw [List.filter_cons, if_pos (Classical.not_not.mp (mt left_out_iff.mpr hskip)),
        List.map_cons, List.map_cons, hids, record_id hrecord]

end DurableStore

namespace Store

variable {s : Store}

/-- An object is stored, and is not left out of a listing. -/
def Wanted (s : Store) (recycledToo : Bool) (id : ObjectId) : Prop :=
  ∃ p, s.place id = some p ∧ (p.recycled = true → recycledToo = true)

/-- No object has a negative number. -/
def Natural (s : Store) : Prop := ∀ id, s.place id ≠ none → 0 ≤ id.number.toInt

theorem wanted_iff {recycledToo recycled : Bool} :
    (recycledToo || !recycled) = true ↔ (recycled = true → recycledToo = true) := by
  cases recycledToo <;> cases recycled <;> decide

/-- In memory a listing goes through the records in the order of the table. -/
theorem listed_memory {s : MemoryStore} (hkey : ∀ e ∈ s.records, e.2.id = e.1)
    (hrecords : s.records.Ordered) (recycledToo : Bool) :
    let ids := (s.records.values.filter fun r => recycledToo || !r.recycled).map Record.id
    Increasing ids ∧ ∀ id, id ∈ ids ↔ (Store.memory s).Wanted recycledToo id := by
  constructor
  · rw [Increasing, List.pairwise_map]
    refine List.Pairwise.filter _ (List.pairwise_map.mpr (List.Pairwise.imp_of_mem ?_ hrecords))
    intro e f he hf hlt
    rwa [hkey e he, hkey f hf]
  · intro id
    simp only [Dict.values, List.mem_map, List.mem_filter, wanted_iff]
    constructor
    · rintro ⟨r, ⟨⟨e, he, rfl⟩, hwanted⟩, rfl⟩
      refine ⟨Place.ofRecord e.2, ?_, hwanted⟩
      rw [hkey e he, place, Dict.get?_of_mem hrecords he]
      rfl
    · rintro ⟨p, hp, hwanted⟩
      obtain ⟨r, hr, rfl⟩ := Option.map_eq_some_iff.mp hp
      have hmem := Dict.mem_of_get? hr
      exact ⟨r, ⟨⟨_, hmem, rfl⟩, hwanted⟩, hkey _ hmem⟩

/-- A durable store is listed in the order of its keys. -/
theorem listed_durable {s : DurableStore} (hobjects : s.objects.Ordered)
    (hnatural : (Store.durable s).Natural) {headers : List Header} (htimes : ∀ h ∈ headers, h.Timed)
    (hentries : s.objects = headers.map DurableStore.headerEntry) (recycledToo : Bool) :
    let ids := (headers.filter fun h => recycledToo || !h.recycled).map Header.id
    Increasing ids ∧ ∀ id, id ∈ ids ↔ (Store.durable s).Wanted recycledToo id := by
  have hplace : ∀ h ∈ headers, (Store.durable s).place h.id = some ⟨h.parent, h.recycled⟩ := by
    intro h hh
    have hmem : DurableStore.headerEntry h ∈ s.objects := hentries ▸ List.mem_map_of_mem hh
    rw [place, DurableStore.header_of_text (htimes h hh) (Dict.get?_of_mem hobjects hmem)]
  constructor
  · rw [hentries, Dict.Ordered, List.pairwise_map] at hobjects
    refine List.Pairwise.map _ (fun _ _ h => h) (List.Pairwise.filter _ ?_)
    refine List.Pairwise.imp_of_mem (fun {g h} _ hh hlt => ?_) hobjects
    -- The order of keys is that of numbers, for there are no negative ones.
    exact ObjectId.lt_of_bytes_lt (hnatural h.id (by rw [hplace h hh]; exact Option.some_ne_none _)) hlt
  · intro id
    simp only [List.mem_map, List.mem_filter, wanted_iff]
    constructor
    · rintro ⟨h, ⟨hh, hwanted⟩, rfl⟩
      exact ⟨_, hplace h hh, hwanted⟩
    · rintro ⟨p, hp, hwanted⟩
      cases htext : s.objects.get? id.bytes with
      | none =>
        rw [place, DurableStore.header, htext] at hp
        cases hp
      | some text =>
        have hmem := Dict.mem_of_get? htext
        rw [hentries] at hmem
        obtain ⟨h, hh, hentry⟩ := List.mem_map.mp hmem
        obtain rfl := DurableStore.bytes_inj (Prod.mk.inj hentry).1
        rw [hplace h hh] at hp
        cases hp
        exact ⟨h, ⟨hh, hwanted⟩, rfl⟩

/-- A listing gives the objects that are wanted by increasing number. -/
theorem list_ids (hs : s.Own) (hf : s.Faithful) (horder : s.Ordered) (hnatural : s.Natural)
    (hc : s.isConnected = true) {recycledToo : Bool} {records : List Record}
    (hlist : (list recycledToo s).1 = .ok records) :
    Increasing (records.map Record.id) ∧
      ∀ id, id ∈ records.map Record.id ↔ s.Wanted recycledToo id := by
  cases s with
  | memory s =>
    rw [list, either, lift_eq (MemoryStore.list_run hc recycledToo)] at hlist
    cases hlist
    exact listed_memory hf horder recycledToo
  | durable s =>
    have hown : s.Own := hs
    rw [list, either, lift_eq (DurableStore.list_run hc recycledToo)] at hlist
    obtain ⟨headers, htimes, hentries, hids⟩ := hown.listFrom_ids (fun _ he => he) hlist
    rw [hids]
    exact listed_durable horder hnatural htimes hentries recycledToo

end Store

end Lineage
