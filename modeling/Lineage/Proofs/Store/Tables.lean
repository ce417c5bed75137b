/-
  Lineage.Proofs.Store.Tables

  What the tables of a durable store say, and what of it can be read back.

  A table spreads the properties, or the methods, of all objects over its entries
  (`Spreads`): it has one for each name, under the key of that object and name, and
  none besides.  Writing and removing entries changes the contents of one object
  (`Spreads.writeEntries`, `Spreads.removeOwned`), and collecting its entries gives its
  contents, if their texts can be read (`Spreads.owned`).

  A value or a method survives when its text is read as the same value or method.  Not
  every one does: a float that is no number has no text.  Updates with surviving contents
  make surviving records of surviving records (`Update.Survives.applyTo`).
-/
import Lineage.Proofs.Dict
import Lineage.Proofs.Json.Persistence
import Lineage.Proofs.Store.Keys

namespace Lineage

open DurableStore (entryKey)

-- Eight bytes are not to be computed with.
attribute [local irreducible] ObjectId.bytes

namespace Update

/-- Writing every entry of a dictionary gives that dictionary. -/
theorem patch_allSet {α : Type} (d : OrderedDict String α) :
    patch (DurableStore.allSet d.entries) {} = d := by
  have hfoldl (entries : List (String × α)) (e : OrderedDict String α) :
      (patch (DurableStore.allSet entries) e).entries =
        entries.foldl (fun d e => Dict.put d e.1 e.2) e.entries := by
    induction entries generalizing e with
    | nil => rfl
    | cons head rest ih => exact ih _
  exact OrderedDict.ext ((hfoldl d.entries {}).trans d.ordered.ofList_self)

end Update

namespace DurableStore

variable {α : Type}

/-- The contents of objects, those of one of them replaced. -/
def assign (content : ObjectId → OrderedDict String α) (id : ObjectId) (d : OrderedDict String α) :
    ObjectId → OrderedDict String α :=
  fun other => if other = id then d else content other

theorem assign_self (content : ObjectId → OrderedDict String α) (id : ObjectId)
    (d : OrderedDict String α) : assign content id d id = d := if_pos rfl

theorem assign_ne (content : ObjectId → OrderedDict String α) {id other : ObjectId} (h : other ≠ id)
    (d : OrderedDict String α) : assign content id d other = content other := if_neg h

theorem assign_assign (content : ObjectId → OrderedDict String α) (id : ObjectId)
    (d e : OrderedDict String α) :
    assign (assign content id d) id e = assign content id e := by
  funext other
  by_cases h : other = id
  · subst h
    rw [assign_self, assign_self]
  · rw [assign_ne _ h, assign_ne _ h, assign_ne _ h]

theorem assign_same (content : ObjectId → OrderedDict String α) (id : ObjectId) :
    assign content id (content id) = content := by
  funext other
  by_cases h : other = id
  · subst h
    rw [assign_self]
  · rw [assign_ne _ h]

/-- What is done for all of a list comes to what it comes to for each element.  Induction on the
list. -/
theorem mapM_ok {β γ : Type} {f : β → Except StoreError γ} {entries : List β} {found : List γ}
    (h : entries.mapM f = .ok found) :
    (∀ c ∈ found, ∃ e ∈ entries, f e = .ok c) ∧ ∀ e ∈ entries, ∃ c ∈ found, f e = .ok c := by
  induction entries generalizing found with
  | nil =>
    cases h
    exact ⟨nofun, nofun⟩
  | cons e rest ih =>
    rw [List.mapM_cons] at h
    cases hfirst : f e with
    | error err => rw [hfirst] at h; cases h
    | ok first =>
      rw [hfirst] at h
      cases hrest : rest.mapM f with
      | error err => rw [hrest] at h; cases h
      | ok more =>
        rw [hrest] at h
        cases h
        obtain ⟨hfound, heach⟩ := ih hrest
        constructor
        · intro c hc
          rcases List.mem_cons.mp hc with rfl | hc
          · exact ⟨e, List.mem_cons_self, hfirst⟩
          · obtain ⟨e', he', hread⟩ := hfound c hc
            exact ⟨e', List.mem_cons_of_mem _ he', hread⟩
        · intro e' he'
          rcases List.mem_cons.mp he' with rfl | he'
          · exact ⟨first, List.mem_cons_self, hfirst⟩
          · obtain ⟨c, hc, hread⟩ := heach e' he'
            exact ⟨c, List.mem_cons_of_mem _ hc, hread⟩

/-- A table has an entry for each name in the contents of an object, and no other entries. -/
structure Spreads (write : α → Json) (content : ObjectId → OrderedDict String α) (t : Table) :
    Prop where
  order : t.Ordered
  keys : ∀ e ∈ t, ∃ id name, e.1 = entryKey id name
  found : ∀ id name,
    t.get? (entryKey id name) = ((content id).get? name).map fun a => (write a).write

namespace Spreads

variable {write : α → Json} {content : ObjectId → OrderedDict String α} {t : Table}

theorem nil : Spreads write (fun _ => {}) [] :=
  ⟨.nil, fun _ he => (nomatch he), fun _ _ => rfl⟩

/-- The same contents, written in another way. -/
theorem congr {content' : ObjectId → OrderedDict String α} (h : Spreads write content t)
    (heq : content' = content) : Spreads write content' t := heq ▸ h

/-- An entry belongs to one object, and is what that object has under one name. -/
theorem entry (h : Spreads write content t) {e : List UInt8 × String} (he : e ∈ t) :
    ∃ id name a, (content id).get? name = some a ∧ e = (entryKey id name, (write a).write) := by
  obtain ⟨key, text⟩ := e
  obtain ⟨id, name, rfl⟩ : ∃ id name, key = entryKey id name := h.keys _ he
  have hfound := h.found id name
  rw [Dict.get?_of_mem h.order he] at hfound
  obtain ⟨a, ha, rfl⟩ := Option.map_eq_some_iff.mp hfound.symm
  exact ⟨id, name, a, ha, rfl⟩

/-- The entries of one object are what it has. -/
theorem owned_iff (h : Spreads write content t) {id : ObjectId} (e : List UInt8 × String) :
    (e ∈ t ∧ id.bytes <+: e.1) ↔
      ∃ name a, (content id).get? name = some a ∧ e = (entryKey id name, (write a).write) := by
  constructor
  · rintro ⟨he, hid⟩
    obtain ⟨owner, name, a, ha, rfl⟩ := h.entry he
    obtain rfl : id = owner := prefix_entryKey_iff.mp hid
    exact ⟨name, a, ha, rfl⟩
  · rintro ⟨name, a, ha, rfl⟩
    refine ⟨Dict.mem_of_get? ((h.found id name).trans ?_), prefix_entryKey_iff.mpr rfl⟩
    rw [ha, Option.map_some]

/-! ## Writing -/

theorem put (h : Spreads write content t) (id : ObjectId) (name : String) (a : α) :
    Spreads write (assign content id ((content id).put name a))
      (t.put (entryKey id name) (write a).write) where
  order := h.order.put _ _
  keys := by
    intro e he
    rcases Dict.mem_put he with rfl | he
    · exact ⟨id, name, rfl⟩
    · exact h.keys e he
  found := by
    intro other name'
    rw [Dict.get?_put, h.found]
    simp only [entryKey_inj]
    by_cases hother : other = id
    · subst hother
      rw [assign_self, OrderedDict.get?_put]
      by_cases hname : name' = name
      · rw [if_pos ⟨rfl, hname⟩, if_pos hname, Option.map_some]
      · rw [if_neg fun hand => hname hand.2, if_neg hname]
    · rw [assign_ne _ hother, if_neg fun hand => hother hand.1]

theorem remove (h : Spreads write content t) (id : ObjectId) (name : String) :
    Spreads write (assign content id ((content id).remove name)) (t.remove (entryKey id name)) where
  order := h.order.remove _
  keys := fun e he => h.keys e (Dict.mem_remove he)
  found := by
    intro other name'
    rw [Dict.get?_remove h.order, h.found]
    simp only [entryKey_inj]
    by_cases hother : other = id
    · subst hother
      rw [assign_self, OrderedDict.get?_remove]
      by_cases hname : name' = name
      · rw [if_pos ⟨rfl, hname⟩, if_pos hname, Option.map_none]
      · rw [if_neg fun hand => hname hand.2, if_neg hname]
    · rw [assign_ne _ hother, if_neg fun hand => hother hand.1]

/-- The contents of an object are patched.  Induction on the changes. -/
theorem writeEntries (h : Spreads write content t) (id : ObjectId)
    (changes : Dict String (Option α)) :
    Spreads write (assign content id (Update.patch changes (content id)))
      (writeEntries id write changes t) := by
  induction changes generalizing content t with
  | nil => exact h.congr (assign_same content id)
  | cons change changes ih =>
    have hstep {d : OrderedDict String α} {t' : Table} (hd : Spreads write (assign content id d) t') :
        Spreads write (assign content id (Update.patch changes d))
          (DurableStore.writeEntries id write changes t') := by
      refine (ih hd).congr ?_
      rw [assign_assign, assign_self]
    obtain ⟨name, _ | a⟩ := change
    · exact hstep (h.remove id name)
    · exact hstep (h.put id name a)

/-- An object loses all its entries, and no other object any of its own. -/
theorem removeOwned (h : Spreads write content t) (id : ObjectId) :
    Spreads write (assign content id {}) (removeOwned id t) where
  order := h.order.sublist List.filter_sublist
  keys := fun e he => h.keys e ((List.mem_filter.mp he).1)
  found := by
    intro other name
    have hfilter := Dict.get?_filter (fun key => !id.bytes.isPrefixOf key) t (entryKey other name)
    rw [DurableStore.removeOwned, hfilter, h.found]
    by_cases hother : other = id
    · subst hother
      have hprefix : (other.bytes).isPrefixOf (entryKey other name) = true :=
        isPrefixOf_iff.mpr (prefix_entryKey_iff.mpr rfl)
      rw [assign_self, hprefix]
      rfl
    · have hprefix : (id.bytes).isPrefixOf (entryKey other name) = false := by
        rw [Bool.eq_false_iff]
        intro hp
        exact hother (prefix_entryKey_iff.mp (isPrefixOf_iff.mp hp)).symm
      rw [assign_ne _ hother, hprefix]
      rfl

/-! ## Reading -/

/-- One entry of an object, by name. -/
def readEntry (id : ObjectId) (read : Json → Option α) (e : List UInt8 × String) :
    Except StoreError (String × α) :=
  match entryName? e.1 with
  | some name => (decode id read e.2).map (name, ·)
  | none => .error (.undecodable id "a name that is no text")

theorem owned_eq (id : ObjectId) (read : Json → Option α) (t : Table) :
    owned id read t =
      ((t.filter fun e => id.bytes.isPrefixOf e.1).mapM (readEntry id read)).map .ofList := by
  have hcollect {f : List UInt8 × String → Except StoreError (String × α)}
      (hf : ∀ e, f e = readEntry id read e) (entries : Table) :
      (do return OrderedDict.ofList (← entries.mapM f)) =
        (entries.mapM (readEntry id read)).map .ofList := by
    rw [funext hf]
    cases entries.mapM (readEntry id read) <;> rfl
  refine hcollect (fun e => ?_) _
  unfold readEntry
  cases entryName? e.1 with
  | none => rfl
  | some name =>
    dsimp only
    cases decode id read e.2 <;> rfl

/-- What has been read of an entry is the name in its key, and what its text says. -/
theorem readEntry_ok {id : ObjectId} {read : Json → Option α} {e : List UInt8 × String}
    {x : String × α} (h : readEntry id read e = .ok x) :
    entryName? e.1 = some x.1 ∧ (Json.read e.2).bind read = some x.2 := by
  unfold readEntry at h
  cases hname : entryName? e.1 with
  | none => rw [hname] at h; cases h
  | some name =>
    rw [hname] at h
    unfold decode at h
    cases hread : (Json.read e.2).bind read with
    | none => rw [hread] at h; cases h
    | some a =>
      rw [hread] at h
      cases h
      exact ⟨rfl, rfl⟩

/-- What has been collected of an object comes of the entries under its keys, and of each of them. -/
theorem owned_ok {id : ObjectId} {read : Json → Option α} {d : OrderedDict String α}
    (h : DurableStore.owned id read t = .ok d) : ∃ found, d = .ofList found ∧
      (∀ x ∈ found, ∃ e ∈ t.filter fun e => id.bytes.isPrefixOf e.1,
        entryName? e.1 = some x.1 ∧ (Json.read e.2).bind read = some x.2) ∧
      ∀ e ∈ t.filter fun e => id.bytes.isPrefixOf e.1, ∃ x ∈ found,
        entryName? e.1 = some x.1 ∧ (Json.read e.2).bind read = some x.2 := by
  rw [owned_eq] at h
  cases hfound : (t.filter fun e => id.bytes.isPrefixOf e.1).mapM (readEntry id read) with
  | error e => rw [hfound] at h; cases h
  | ok found =>
    rw [hfound] at h
    cases h
    obtain ⟨hread, heach⟩ := mapM_ok hfound
    refine ⟨found, rfl, fun x hx => ?_, fun e he => ?_⟩
    · obtain ⟨e, he, hentry⟩ := hread x hx
      exact ⟨e, he, readEntry_ok hentry⟩
    · obtain ⟨x, hx, hentry⟩ := heach e he
      exact ⟨x, hx, readEntry_ok hentry⟩

/-- Every entry is read, one after the other.  Induction on the entries. -/
theorem mapM_entries {id : ObjectId} {read : Json → Option α} {entries : Table}
    (hentries : ∀ e ∈ entries, ∃ name a, (Json.read (write a).write).bind read = some a ∧
      e = (entryKey id name, (write a).write)) :
    ∃ contents : List (String × α),
      entries.mapM (readEntry id read) = .ok contents ∧
      entries = contents.map (fun x => (entryKey id x.1, (write x.2).write)) ∧
      ∀ x ∈ contents, (Json.read (write x.2).write).bind read = some x.2 := by
  induction entries with
  | nil => exact ⟨[], rfl, rfl, fun _ hx => nomatch hx⟩
  | cons e rest ih =>
    obtain ⟨name, a, hread, rfl⟩ := hentries e List.mem_cons_self
    obtain ⟨contents, hrest, rfl, hreads⟩ := ih fun e' he' => hentries e' (List.mem_cons_of_mem _ he')
    have hentry : readEntry id read (entryKey id name, (write a).write) = .ok (name, a) := by
      simp only [readEntry, entryName?_entryKey, decode, hread, Except.map]
    refine ⟨(name, a) :: contents, ?_, rfl, ?_⟩
    · rw [List.mapM_cons, hentry, hrest]
      rfl
    · intro x hx
      rcases List.mem_cons.mp hx with rfl | hx
      · exact hread
      · exact hreads x hx

/-- Collecting the entries of an object gives its contents. -/
theorem owned (h : Spreads write content t) (id : ObjectId) {read : Json → Option α}
    (hread : ∀ e ∈ (content id).entries, (Json.read (write e.2).write).bind read = some e.2) :
    owned id read t = .ok (content id) := by
  have hmem : ∀ e ∈ t.filter fun e => id.bytes.isPrefixOf e.1, ∃ name a,
      (Json.read (write a).write).bind read = some a ∧ e = (entryKey id name, (write a).write) := by
    intro e he
    obtain ⟨he, hprefix⟩ := List.mem_filter.mp he
    obtain ⟨name, a, ha, rfl⟩ := (h.owned_iff e).mp ⟨he, isPrefixOf_iff.mp hprefix⟩
    exact ⟨name, a, hread (name, a) (Dict.mem_of_get? ha), rfl⟩
  obtain ⟨contents, hmapM, hfilter, hreads⟩ := mapM_entries hmem
  have hsame {a b : α} (ha : (Json.read (write a).write).bind read = some a)
      (hb : (Json.read (write b).write).bind read = some b)
      (hab : (write a).write = (write b).write) : a = b := by
    rw [hab, hb] at ha
    exact (Option.some.inj ha).symm
  have hcontents : OrderedDict.ofList contents = content id := by
    refine OrderedDict.ext_get? fun name => ?_
    refine Dict.get?_ofList (fun x hx => ?_) (fun name a ha => ?_) name
    · have hentry : (entryKey id x.1, (write x.2).write) ∈ t :=
        (List.mem_filter.mp (hfilter ▸ List.mem_map_of_mem hx)).1
      have hfound := h.found id x.1
      rw [Dict.get?_of_mem h.order hentry] at hfound
      obtain ⟨a, ha, htext⟩ := Option.map_eq_some_iff.mp hfound.symm
      exact ha.trans (congrArg some
        (hsame (hread (x.1, a) (Dict.mem_of_get? ha)) (hreads x hx) htext))
    · obtain ⟨hentry, hprefix⟩ := (h.owned_iff _).mpr ⟨name, a, ha, rfl⟩
      have hchosen : (entryKey id name, (write a).write) ∈
          t.filter fun e => id.bytes.isPrefixOf e.1 :=
        List.mem_filter.mpr ⟨hentry, isPrefixOf_iff.mpr hprefix⟩
      rw [hfilter] at hchosen
      obtain ⟨⟨name', a'⟩, hx, heq⟩ := List.mem_map.mp hchosen
      obtain ⟨hkey, htext⟩ := Prod.mk.inj heq
      obtain rfl : name' = name := (entryKey_inj.mp hkey).2
      obtain rfl : a' = a := hsame (hreads (name', a') hx)
        (hread (name', a) (Dict.mem_of_get? ha)) htext
      exact hx
  rw [owned_eq, hmapM]
  exact congrArg Except.ok hcontents

end Spreads

end DurableStore

end Lineage

namespace Lineage

/-! ## Values and methods -/

/-- The text of a value is read back. -/
def Value.Survives (v : Value) : Prop :=
  (Json.read (Json.ofValue v).write).bind (Json.value? Json.maxDepth) = some v

/-- A value that does not nest too deep survives, if its floats do and nothing is put right of it. -/
theorem Value.survives_of_sound {v : Value} (hfloats : v.FloatsRead) (hsound : v.Sound)
    (hlevels : v.levels ≤ Json.maxDepth) : v.Survives := by
  have hread := Json.readValue_of_floatsRead hfloats
  rw [if_pos hlevels, reread_self v hsound] at hread
  exact hread

theorem Value.survives_str (s : String) : (Value.str s).Survives :=
  survives_of_sound nofun ⟨nofun, nofun⟩ (show 1 ≤ 127 by decide)

/-- The text of a method is read back. -/
def MethodDef.Survives (m : MethodDef) : Prop :=
  (Json.read (Json.ofMethod m).write).bind (Json.method? Json.maxDepth) = some m

structure Record.Survives (r : Record) : Prop where
  created : r.created.Valid
  modified : r.modified.Valid
  values : ∀ e ∈ r.properties.entries, e.2.Survives
  sources : ∀ e ∈ r.methods.entries, e.2.Survives

structure Update.Survives (u : Update) : Prop where
  modified : ∀ t, u.modified = some t → t.Valid
  values : ∀ name v, (name, some v) ∈ u.properties → v.Survives
  sources : ∀ name m, (name, some m) ∈ u.methods → m.Survives

namespace Update

theorem mem_patch {α : Type} {changes : Dict String (Option α)} {d : OrderedDict String α}
    {e : String × α} (h : e ∈ (patch changes d).entries) :
    (e.1, some e.2) ∈ changes ∨ e ∈ d.entries := by
  induction changes generalizing d with
  | nil => exact .inr h
  | cons change changes ih =>
    rcases ih h with hmem | hmem
    · exact .inl (List.mem_cons_of_mem _ hmem)
    · obtain ⟨name, _ | a⟩ := change
      · exact .inr (Dict.mem_remove hmem)
      · rcases Dict.mem_put hmem with rfl | hmem
        · exact .inl List.mem_cons_self
        · exact .inr hmem

theorem Survives.applyTo {u : Update} {r : Record} (hu : u.Survives) (hr : r.Survives) :
    (u.applyTo r).Survives where
  created := hr.created
  modified := by
    show (u.modified.getD r.modified).Valid
    cases hmodified : u.modified with
    | none => exact hr.modified
    | some t => exact hu.modified t hmodified
  values := by
    rintro ⟨name, v⟩ he
    rcases mem_patch he with he | he
    · exact hu.values name v he
    · exact hr.values (name, v) he
  sources := by
    rintro ⟨name, m⟩ he
    rcases mem_patch he with he | he
    · exact hu.sources name m he
    · exact hr.sources (name, m) he

theorem ofRecord_untouched {u : Update} (h : u.touchesHeader = false) (r : Record) :
    Header.ofRecord (u.applyTo r) = Header.ofRecord r := by
  obtain ⟨parent, recycled, modified, properties, methods⟩ := u
  cases parent <;> cases recycled <;> cases modified <;> first | rfl | cases h

end Update

end Lineage
