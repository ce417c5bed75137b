/-
  Lineage.Proofs.Json.Legibility

  Which values can be read again at all.

  A float that is infinite or no number has no text of its own: what is written of it is
  what is written of nothing (`write_nulled`).  So it makes every value illegible that it
  is in.  The only other reason is that the written form nests too deep
  (`readValue_writeValue`).
-/
import Lineage.Proofs.Json.Encoding

namespace Lineage

/-- No float in a value is infinite or no number. -/
def Value.Finite (v : Value) : Prop := ∀ x, Within (.float x) v → x.isFinite = true

/-- The texts of the finite floats in a value are read as these floats. -/
def Value.FiniteRead (v : Value) : Prop :=
  ∀ x, Within (.float x) v → x.isFinite = true → Json.FloatReads x

namespace Json

/-! ## Forms without infinite floats -/

mutual

/-- A form as its text says it. -/
def nulled : Json → Json
  | .float x => if x.isFinite then .float x else .null
  | .arr items => .arr (nulledItems items)
  | .obj fields => .obj (nulledFields fields)
  | j => j

def nulledItems : List Json → List Json
  | [] => []
  | j :: rest => j.nulled :: nulledItems rest

def nulledFields : List (String × Json) → List (String × Json)
  | [] => []
  | (name, j) :: rest => (name, j.nulled) :: nulledFields rest

end

mutual

theorem write_nulled : (j : Json) → j.nulled.write = j.write
  | .null | .bool _ | .int _ | .str _ | .unusable => rfl
  | .float x => by
    rw [nulled]
    split
    · rfl
    · rename_i hx
      rw [write, write, writeFloat, if_neg hx]
  | .arr items => by rw [nulled, write, write, writeItems_nulled items]
  | .obj fields => by rw [nulled, write, write, writeFields_nulled fields]

theorem writeItems_nulled : (items : List Json) → writeItems (nulledItems items) = writeItems items
  | [] => rfl
  | j :: rest => by rw [nulledItems, writeItems, writeItems, write_nulled j, writeItems_nulled rest]

theorem writeFields_nulled : (fields : List (String × Json)) →
    writeFields (nulledFields fields) = writeFields fields
  | [] => rfl
  | (_, j) :: rest => by rw [nulledFields, writeFields, writeFields, write_nulled j, writeFields_nulled rest]

end

theorem FloatReads.finite {x : Binary64} (h : FloatReads x) : x.isFinite = true := by
  by_cases hx : x.isFinite = true
  · exact hx
  · rw [FloatReads, writeFloat, if_neg hx] at h
    cases h

/-! ## Written values as their texts say them -/

mutual

theorem ofValue_nulled_plain : (v : Value) → v.FiniteRead → (ofValue v).nulled.Plain
  | .null, _ | .bool _, _ | .str _, _ => ⟨trivial, by trivial⟩
  | .int n, _ => ⟨trivial, .int64 n, trivial⟩
  | .obj id, _ => ⟨trivial, .int64 id.number, trivial⟩
  | .float x, h => by
    refine ⟨trivial, ?_, trivial⟩
    rw [nulled]
    split
    · rename_i hx
      exact h x (.self _) hx
    · trivial
  | .err ⟨_, none⟩, _ => ⟨trivial, ⟨trivial, trivial⟩, trivial⟩
  | .err ⟨_, some _⟩, _ => ⟨trivial, ⟨trivial, trivial, trivial⟩, trivial⟩
  | .list items, h =>
    ⟨trivial, ofItems_nulled_plain items fun _ hv x hx => h x (.item hv hx), trivial⟩
  | .map entries, h =>
    ⟨trivial, ofEntries_nulled_plain entries fun _ he x hx => h x (.entry he hx), trivial⟩

theorem ofItems_nulled_plain : (items : List Value) → (∀ v ∈ items, v.FiniteRead) →
    ItemsPlain (nulledItems (ofItems items))
  | [], _ => trivial
  | v :: rest, h => ⟨ofValue_nulled_plain v (h v List.mem_cons_self),
      ofItems_nulled_plain rest fun _ hu => h _ (List.mem_cons_of_mem _ hu)⟩

theorem ofEntries_nulled_plain : (entries : List (String × Value)) → (∀ e ∈ entries, e.2.FiniteRead) →
    FieldsPlain (nulledFields (ofEntries entries))
  | [], _ => trivial
  | (_, v) :: rest, h => ⟨ofValue_nulled_plain v (h _ List.mem_cons_self),
      ofEntries_nulled_plain rest fun _ he => h _ (List.mem_cons_of_mem _ he)⟩

end

mutual

/-- The text of a value that is finite leaves nothing out. -/
theorem ofValue_nulled : (v : Value) → v.Finite → (ofValue v).nulled = ofValue v
  | .null, _ | .bool _, _ | .str _, _ | .int _, _ | .obj _, _ => rfl
  | .err ⟨_, none⟩, _ | .err ⟨_, some _⟩, _ => rfl
  | .float x, h => by
    rw [ofValue, tagged, nulled, nulledFields, nulledFields, nulledFields, nulled, nulled,
      if_pos (h x (.self _))]
    all_goals nofun
  | .list items, h => by
    have hitems := ofItems_nulled items fun _ hv x hx => h x (.item hv hx)
    exact congrArg (fun items => tagged .array (.arr items)) hitems
  | .map entries, h => by
    have hentries := ofEntries_nulled entries fun _ he x hx => h x (.entry he hx)
    exact congrArg (fun entries => tagged .object (.obj entries)) hentries

theorem ofItems_nulled : (items : List Value) → (∀ v ∈ items, v.Finite) →
    nulledItems (ofItems items) = ofItems items
  | [], _ => rfl
  | v :: rest, h => by
    rw [ofItems, nulledItems, ofValue_nulled v (h v List.mem_cons_self),
      ofItems_nulled rest fun _ hu => h _ (List.mem_cons_of_mem _ hu)]

theorem ofEntries_nulled : (entries : List (String × Value)) → (∀ e ∈ entries, e.2.Finite) →
    nulledFields (ofEntries entries) = ofEntries entries
  | [], _ => rfl
  | (k, v) :: rest, h => by
    rw [ofEntries, nulledFields, ofValue_nulled v (h _ List.mem_cons_self),
      ofEntries_nulled rest fun _ he => h _ (List.mem_cons_of_mem _ he)]

end

theorem items?_eq_none {room : Nat} {items : List Value} {v : Value} (hv : v ∈ items)
    (h : value? room (ofValue v).nulled = none) : items? room (nulledItems (ofItems items)) = none := by
  induction items with
  | nil => cases hv
  | cons u rest ih =>
    rw [ofItems, nulledItems, items?]
    rcases List.mem_cons.mp hv with rfl | hv
    · rw [h]
    · rw [ih hv]
      cases value? room (ofValue u).nulled <;> rfl

theorem entries?_eq_none {room : Nat} {entries : List (String × Value)} {e : String × Value}
    (he : e ∈ entries) (h : value? room (ofValue e.2).nulled = none) :
    entries? room (nulledFields (ofEntries entries)) = none := by
  induction entries with
  | nil => cases he
  | cons f rest ih =>
    rw [ofEntries, nulledFields, entries?]
    rcases List.mem_cons.mp he with rfl | he
    · rw [h]
    · rw [ih he]
      cases value? room (ofValue f.2).nulled <;> rfl

/-- Nothing is read of a value with a float in it that is not finite.  Induction on where it is. -/
theorem value?_infinite {x : Binary64} (hx : x.isFinite ≠ true) {v : Value}
    (hwithin : Value.Within (.float x) v) (room : Nat) : value? room (ofValue v).nulled = none := by
  induction hwithin generalizing room with
  | self =>
    have hform : (ofValue (.float x)).nulled = tagged .number .null := by
      show Json.obj [("type", .str TypeTag.number.name), ("value", (Json.float x).nulled)] = _
      rw [nulled, if_neg hx]
      rfl
    rw [hform]
    cases room with
    | zero => rfl
    | succ room => exact value?_tagged room .number .null
  | @item v items hv hwithin ih =>
    show value? room (tagged .array (.arr (nulledItems (ofItems items)))) = none
    rcases room with _ | _ | room
    · rfl
    · exact value?_tagged 0 .array _
    · rw [value?_tagged, content?, items?_eq_none hv (ih room)]
      rfl
  | @entry v name entries he hwithin ih =>
    show value? room (tagged .object (.obj (nulledFields (ofEntries entries)))) = none
    rcases room with _ | _ | room
    · rfl
    · exact value?_tagged 0 .object _
    · rw [value?_tagged, content?, entries?_eq_none he (ih room)]
      rfl

/-! ## Texts of values -/

def readValue (text : String) : Option Value := (read text).bind (value? maxDepth)

def writeValue (v : Value) : String := (ofValue v).write

open Classical in
/-- What is read of a value that has been written. -/
theorem readValue_writeValue {v : Value} (hfloats : v.FiniteRead) :
    readValue (writeValue v) = if v.Finite ∧ v.levels ≤ maxDepth then some v.reread else none := by
  rw [readValue, writeValue, ← write_nulled, read_write (ofValue_nulled_plain v hfloats), Option.bind_some]
  by_cases hfinite : v.Finite
  · rw [ofValue_nulled v hfinite, value?_ofValue]
    simp only [hfinite, true_and]
  · rw [if_neg fun h => hfinite h.1]
    simp only [Value.Finite, not_forall] at hfinite
    obtain ⟨x, hwithin, hx⟩ := hfinite
    exact value?_infinite hx hwithin maxDepth

end Json

/-- Something can be read of the text of a value. -/
def Value.Legible (v : Value) : Prop := Json.readValue (Json.writeValue v) ≠ none

/-- A value is legible if its floats are finite and it does not nest too deep, and only then. -/
theorem Value.legible_iff {v : Value} (hfloats : v.FiniteRead) :
    v.Legible ↔ v.Finite ∧ v.levels ≤ Json.maxDepth := by
  rw [Legible, Json.readValue_writeValue hfloats]
  split
  · rename_i h
    exact ⟨fun _ => h, fun _ => nofun⟩
  · rename_i h
    exact ⟨fun hne => absurd rfl hne, fun h' => absurd h' h⟩

end Lineage
