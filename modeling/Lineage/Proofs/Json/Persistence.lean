/-
  Lineage.Proofs.Json.Persistence

  Reading undoes writing, over all that is stored.

  What has been read of any text is read back from what is written of it, and so is every
  value whose written form does not nest too deep (`reading_undoes_writing`).  That floats
  are read back from their texts is asked for: it is not so of all.
-/
import Lineage.Proofs.Json.Legibility
import Lineage.Proofs.Store.HeaderText

namespace Lineage

/-- The texts of the floats in a value are read as these floats. -/
def Value.FloatsRead (v : Value) : Prop := ∀ x, Within (.float x) v → Json.FloatReads x

theorem Value.FloatsRead.finite {v : Value} (h : v.FloatsRead) : v.Finite :=
  fun x hx => (h x hx).finite

theorem Value.FloatsRead.finiteRead {v : Value} (h : v.FloatsRead) : v.FiniteRead :=
  fun x hx _ => h x hx

/-- Codes are what is read of their names, or custom ones whose names are not read. -/
def Value.CodesRead (v : Value) : Prop := ∀ e, Within (.err e) v →
  ErrorCode.read e.code.name = some e.code ∨
    ((∃ name, e.code = .custom name) ∧ ErrorCode.read e.code.name = none)

/-- The entries of all maps are in order. -/
def Value.EntriesOrdered (v : Value) : Prop := ∀ entries, Within (.map entries) v → Dict.Ordered entries

theorem Value.sound_of_codes {v : Value} (hcodes : v.CodesRead) (hordered : v.EntriesOrdered) : v.Sound where
  ordered := hordered
  codes e he := by
    rw [Json.errorCode]
    rcases hcodes e he with hread | ⟨⟨name, hname⟩, hread⟩
    · rw [hread, Option.getD_some]
    · rw [hread, Option.getD_none, hname, ErrorCode.name]

namespace Json

/-! ## Texts of values -/

theorem ofValue_plain {v : Value} (h : v.FloatsRead) : (ofValue v).Plain := by
  have hplain := ofValue_nulled_plain v h.finiteRead
  rwa [ofValue_nulled v h.finite] at hplain

theorem readValue_of_floatsRead {v : Value} (h : v.FloatsRead) :
    readValue (writeValue v) = if v.levels ≤ maxDepth then some v.reread else none := by
  rw [readValue_writeValue h.finiteRead]
  simp only [h.finite, true_and]

/-- What is read of a text fits. -/
theorem readValue_fitting {text : String} {v : Value} (h : readValue text = some v) : Fitting maxDepth v := by
  obtain ⟨j, -, hv⟩ := Option.bind_eq_some_iff.mp h
  exact value?_fitting maxDepth j v hv

/-! ## Texts of methods -/

def readMethod (text : String) : Option MethodDef := (read text).bind (method? maxDepth)

def writeMethod (m : MethodDef) : String := (ofMethod m).write

theorem strings?_map (texts : List String) : strings? (.arr (texts.map .str)) = some texts := by
  show (texts.map Json.str).mapM str? = some texts
  induction texts with
  | nil => rfl
  | cons text rest ih => rw [List.map_cons, List.mapM_cons, ih]; rfl

theorem itemsUsable_map (room : Nat) (texts : List String) : itemsUsable room (texts.map .str) = true := by
  induction texts with
  | nil => rfl
  | cons text rest ih => rw [List.map_cons, itemsUsable, ih]; rfl

/-- A method is read back from its form, which nests two levels at most. -/
theorem method?_ofMethod (room : Nat) (m : MethodDef) : method? (room + 2) (ofMethod m) = some m := by
  obtain ⟨source, callable, aliases, help⟩ := m
  have haliases := strings?_map aliases
  have husable := itemsUsable_map room aliases
  generalize hempty : aliases.isEmpty = empty
  cases callable <;> cases help <;> cases empty <;>
    simp [ofMethod, method?, hempty, haliases, husable, isUsable, fieldsUsable, required?, optional?, once?,
      countField, field?, List.lookup_cons, str?, bool?, optionalStr?]
  all_goals exact List.isEmpty_iff.mp hempty

theorem ofMethod_plain (m : MethodDef) : (ofMethod m).Plain := by
  have hstrings (texts : List String) : ItemsPlain (texts.map .str) :=
    (itemsPlain_iff _).mpr fun j hj => by
      obtain ⟨text, -, rfl⟩ := List.mem_map.mp hj
      trivial
  refine (fieldsPlain_iff _).mpr fun f hf => ?_
  obtain ⟨source, callable, aliases, help⟩ := m
  simp only [List.mem_append, List.mem_singleton] at hf
  rcases hf with ((rfl | hf) | hf) | hf
  · trivial
  · split at hf
    · cases List.mem_singleton.mp hf
      trivial
    · cases hf
  · split at hf
    · cases hf
    · cases List.mem_singleton.mp hf
      exact hstrings aliases
  · split at hf
    · cases List.mem_singleton.mp hf
      trivial
    · cases hf

theorem readMethod_writeMethod (m : MethodDef) : readMethod (writeMethod m) = some m := by
  rw [readMethod, writeMethod, read_write (ofMethod_plain m), Option.bind_some]
  exact method?_ofMethod 125 m

/-! ## Texts of records -/

def readRecord (text : String) : Option Record := (read text).bind (record? maxDepth)

def writeRecord (r : Record) : String := (ofRecord r).write

/-- A dictionary is read back if what is in it is. -/
theorem dict?_map {α : Type} {decode : Json → Option α} {form : α → Json} (d : OrderedDict String α)
    (h : ∀ e ∈ d.entries, decode (form e.2) = some e.2) :
    dict? decode (.obj (d.entries.map fun e => (e.1, form e.2))) = some d := by
  have hentries (entries : List (String × α)) (h : ∀ e ∈ entries, decode (form e.2) = some e.2) :
      (entries.map fun e => (e.1, form e.2)).mapM
        (fun (f : String × Json) => (decode f.2).map (f.1, ·)) = some entries := by
    induction entries with
    | nil => rfl
    | cons e rest ih =>
      rw [List.map_cons, List.mapM_cons, h e List.mem_cons_self,
        ih fun e he => h e (List.mem_cons_of_mem _ he)]
      rfl
  rw [dict?, hentries d.entries h, Option.map_some, d.ofList_entries]

/-- What is in a dictionary that is read has been read. -/
theorem of_dict? {α : Type} {decode : Json → Option α} {j : Json} {d : OrderedDict String α}
    (h : dict? decode j = some d) {e : String × α} (he : e ∈ d.entries) :
    ∃ j, decode j = some e.2 := by
  unfold dict? at h
  split at h
  · rename_i fields
    obtain ⟨entries, hentries, rfl⟩ := Option.map_eq_some_iff.mp h
    have hread (fields : List (String × Json)) (entries : List (String × α))
        (hentries : fields.mapM (fun (f : String × Json) => (decode f.2).map (f.1, ·)) = some entries)
        (he : e ∈ entries) : ∃ j, decode j = some e.2 := by
      induction fields generalizing entries with
      | nil => cases hentries; cases he
      | cons f rest ih =>
        rw [List.mapM_cons] at hentries
        obtain ⟨first, hfirst, hentries⟩ := Option.bind_eq_some_iff.mp hentries
        obtain ⟨others, hothers, hentries⟩ := Option.bind_eq_some_iff.mp hentries
        cases hentries
        rcases List.mem_cons.mp he with rfl | he
        · obtain ⟨a, ha, rfl⟩ := Option.map_eq_some_iff.mp hfirst
          exact ⟨f.2, ha⟩
        · exact ih others hothers he
    exact hread fields entries hentries (Dict.mem_of_mem_ofList he)
  · cases h

/-- What a record that has been read is like. -/
structure Readable (r : Record) : Prop where
  created : r.created.Valid
  modified : r.modified.Valid
  values : ∀ e ∈ r.properties.entries, Fitting (maxDepth - 2) e.2

/-- What is read of an optional dictionary. -/
theorem of_optionalDict? {α : Type} {decode : Json → Option α} {fields : List (String × Json)}
    {name : String} {d : OrderedDict String α} (h : optional? fields name {} (dict? decode) = some d)
    {e : String × α} (he : e ∈ d.entries) : ∃ j, decode j = some e.2 := by
  unfold optional? at h
  split at h
  · exact of_dict? h he
  · cases h
    cases he
  · cases h

theorem record?_readable {j : Json} {r : Record} (h : record? maxDepth j = some r) : Readable r := by
  simp only [record?, Option.bind_eq_bind, Option.bind_eq_some_iff, Option.pure_def, Option.some.injEq] at h
  obtain ⟨fields, -, _, -, id, -, _, -, parent, -, properties, hproperties, methods, -, _, -, created,
    hcreated, _, -, modified, hmodified, recycled, -, rfl⟩ := h
  refine ⟨timestamp?_valid hcreated, timestamp?_valid hmodified, fun e he => ?_⟩
  obtain ⟨j, hj⟩ := of_optionalDict? hproperties he
  exact value?_fitting _ j e.2 hj

theorem ofRecord_plain {r : Record} (hfloats : ∀ e ∈ r.properties.entries, e.2.FloatsRead) : (ofRecord r).Plain := by
  have hproperties : FieldsPlain (r.properties.entries.map fun p => (p.1, ofValue p.2)) :=
    (fieldsPlain_iff _).mpr fun f hf => by
      obtain ⟨e, he, rfl⟩ := List.mem_map.mp hf
      exact ofValue_plain (hfloats e he)
  have hmethods : FieldsPlain (r.methods.entries.map fun m => (m.1, ofMethod m.2)) :=
    (fieldsPlain_iff _).mpr fun f hf => by
      obtain ⟨e, -, rfl⟩ := List.mem_map.mp hf
      exact ofMethod_plain e.2
  refine (fieldsPlain_iff _).mpr fun f hf => ?_
  rcases List.mem_append.mp hf with hf | hf
  · simp only [List.mem_cons, List.not_mem_nil, or_false] at hf
    rcases hf with rfl | rfl | rfl | rfl | rfl | rfl
    · exact .int64 _
    · exact .int64 _
    · exact hproperties
    · exact hmethods
    · trivial
    · trivial
  · unfold recycledField at hf
    split at hf
    · cases List.mem_singleton.mp hf
      trivial
    · cases hf

theorem record?_ofRecord {r : Record} (hr : Readable r) : record? maxDepth (ofRecord r) = some r := by
  have hproperties : dict? (value? (maxDepth - 2)) (.obj (r.properties.entries.map fun p => (p.1, ofValue p.2))) =
      some r.properties := dict?_map r.properties fun e he => by
    obtain ⟨hlevels, hsound⟩ := hr.values e he
    rw [value?_ofValue, if_pos hlevels, Value.reread_self e.2 hsound]
  have hmethods : dict? (method? (maxDepth - 2)) (.obj (r.methods.entries.map fun m => (m.1, ofMethod m.2))) =
      some r.methods := dict?_map r.methods fun e _ => method?_ofMethod 123 e.2
  have hcreated := Header.timestamp?_ofTimestamp hr.created
  have hmodified := Header.timestamp?_ofTimestamp hr.modified
  obtain ⟨id, parent, properties, methods, created, modified, recycled⟩ := r
  rw [ofRecord]
  generalize Json.ofTimestamp created = created' at hcreated
  generalize Json.ofTimestamp modified = modified' at hmodified
  generalize Json.obj (properties.entries.map _) = properties' at hproperties
  generalize Json.obj (methods.entries.map _) = methods' at hmethods
  cases recycled <;>
    simp [record?, structFields?, required?, optional?, once?, countField, field?, List.lookup_cons,
      Header.objectId?_int, hcreated, hmodified, hproperties, hmethods, recycledField, bool?]

theorem readRecord_writeRecord {r : Record} (hr : Readable r)
    (hfloats : ∀ e ∈ r.properties.entries, e.2.FloatsRead) : readRecord (writeRecord r) = some r := by
  rw [readRecord, writeRecord, read_write (ofRecord_plain hfloats), Option.bind_some, record?_ofRecord hr]

/-! ## Reading undoes writing -/

/-- What is written of something is read as just that, and written again it is the same text. -/
def Restored {α : Type} (read : String → Option α) (write : α → String) (a : α) : Prop :=
  ∃ again, read (write a) = some again ∧ again = a ∧ write again = write a

theorem Restored.of_read {α : Type} {read : String → Option α} {write : α → String} {a : α}
    (h : read (write a) = some a) : Restored read write a := ⟨a, h, rfl, rfl⟩

/-- What is read of a text, be it a value, a method or a record, is read back from what is written of
it, if floats are.  A bare text is the source of a method that has nothing else.  A value whose codes
are read of their names is read back from its written form, if that does not nest too deep, and only
then. -/
theorem reading_undoes_writing (text : String) :
    (∀ v, readValue text = some v → v.FloatsRead → Restored readValue writeValue v) ∧
    (∀ m, readMethod text = some m → Restored readMethod writeMethod m) ∧
    (∀ r, readRecord text = some r → (∀ e ∈ r.properties.entries, e.2.FloatsRead) →
      Restored readRecord writeRecord r) ∧
    (∀ source, read text = some (.str source) → readMethod text = some { source }) ∧
    ∀ v : Value, v.CodesRead → v.EntriesOrdered → v.FloatsRead →
      (Restored readValue writeValue v ↔ v.levels ≤ maxDepth) := by
  refine ⟨fun v hv hfloats => .of_read ?_, fun m _ => .of_read (readMethod_writeMethod m),
    fun r hr hfloats => .of_read ?_, fun source hsource => ?_,
    fun v hcodes hordered hfloats => ⟨?_, fun hlevels => .of_read ?_⟩⟩
  · obtain ⟨hlevels, hsound⟩ := readValue_fitting hv
    rw [readValue_of_floatsRead hfloats, if_pos hlevels, Value.reread_self v hsound]
  · obtain ⟨j, -, hj⟩ := Option.bind_eq_some_iff.mp hr
    exact readRecord_writeRecord (record?_readable hj) hfloats
  · rw [readMethod, hsource]
    rfl
  · rintro ⟨again, hagain, rfl, -⟩
    exact (readValue_fitting hagain).1
  · rw [readValue_of_floatsRead hfloats, if_pos hlevels,
      Value.reread_self v (Value.sound_of_codes hcodes hordered)]

/-- A half, and a code whose name is in lower case. -/
def mixed : Value := .list [.float (.ofRatio false 1 2), .err ⟨.custom "e_perm", none⟩]

theorem mixed_floatsRead {v : Value} (hv : v = mixed ∨ v = mixed.reread) : v.FloatsRead := by
  intro x hx
  rcases hv with rfl | rfl
  all_goals
    cases hx with
    | item hu hx =>
      rcases List.mem_cons.mp hu with rfl | hu
      · cases hx
        rfl
      · cases List.mem_singleton.mp hu
        cases hx

/-- The code is read as one that is built in, and stays that. -/
theorem reading_undoes_writing_mixed :
    readValue (writeValue mixed) = some mixed.reread ∧ Restored readValue writeValue mixed.reread := by
  have hread : readValue (writeValue mixed) = some mixed.reread := by
    rw [readValue_of_floatsRead (mixed_floatsRead (.inl rfl)), if_pos (by decide)]
  exact ⟨hread, (reading_undoes_writing (writeValue mixed)).1 _ hread (mixed_floatsRead (.inr rfl))⟩

/-! ## Deep nesting -/

/-- Lists within a list, the last of them empty. -/
def nested : Nat → Value
  | 0 => .list []
  | depth + 1 => .list [nested depth]

theorem levels_nested (depth : Nat) : (nested depth).levels = 2 * depth + 2 := by
  induction depth with
  | zero => rfl
  | succ depth ih =>
    rw [nested, Value.levels, Value.itemsLevels, Value.itemsLevels, ih]
    omega

theorem list_of_nested {depth : Nat} {u : Value} (h : Value.Within u (nested depth)) :
    ∃ items, u = .list items := by
  induction depth with
  | zero =>
    cases h with
    | self => exact ⟨[], rfl⟩
    | item hv => cases hv
  | succ depth ih =>
    rw [nested] at h
    cases h with
    | self => exact ⟨_, rfl⟩
    | item hv hu => exact ih (List.mem_singleton.mp hv ▸ hu)

theorem nested_floatsRead (depth : Nat) : (nested depth).FloatsRead := fun x hx => by
  obtain ⟨items, h⟩ := list_of_nested hx
  cases h

/-- Sixty-four lists, each within the next, are not read back. -/
theorem deep_not_restored : (nested 63).CodesRead ∧ (nested 63).EntriesOrdered ∧ (nested 63).FloatsRead ∧
    readValue (writeValue (nested 63)) = none := by
  refine ⟨fun e he => ?_, fun entries he => ?_, nested_floatsRead 63, ?_⟩
  · obtain ⟨items, h⟩ := list_of_nested he
    cases h
  · obtain ⟨items, h⟩ := list_of_nested he
    cases h
  · rw [readValue_of_floatsRead (nested_floatsRead 63), levels_nested, if_neg (by decide)]

end Json

end Lineage
