/-
  Lineage.Proofs.Json.Encoding

  What is read of a value that has been written.

  The written form of a value can be read if it nests no deeper than there is room, and
  what is read is the value, but for codes and for the order of entries, which are put
  right (`value?_ofValue`).  Whatever is read of any form nests no deeper than there was
  room, and has nothing in it that would have to be put right (`Sound.of_value?`); so it is
  read back from its own form.
-/
import Lineage.Json.Codec
import Lineage.Proofs.Dict
import Lineage.Proofs.Json.Text
import Lineage.Proofs.Text.Case

namespace Lineage

namespace Value

/-! ## The parts of a value -/

/-- A value is within another: it is that, or within one of its items or entries. -/
inductive Within : Value → Value → Prop
  | self (v : Value) : Within v v
  | item {u v : Value} {items : List Value} (h : v ∈ items) (hu : Within u v) : Within u (.list items)
  | entry {u v : Value} {name : String} {entries : List (String × Value)} (h : (name, v) ∈ entries)
      (hu : Within u v) : Within u (.map entries)

mutual

/-- How deep the written form of a value nests. -/
def levels : Value → Nat
  | .list items => itemsLevels items + 2
  | .map entries => entriesLevels entries + 2
  | .err _ => 2
  | _ => 1

def itemsLevels : List Value → Nat
  | [] => 0
  | v :: rest => max v.levels (itemsLevels rest)

def entriesLevels : List (String × Value) → Nat
  | [] => 0
  | (_, v) :: rest => max v.levels (entriesLevels rest)

end

mutual

/-- A value with its codes as they are read, and with its entries in order. -/
def reread : Value → Value
  | .list items => .list (rereadItems items)
  | .map entries => .map (Dict.ofList (rereadEntries entries))
  | .err e => .err { e with code := Json.errorCode e.code.name }
  | v => v

def rereadItems : List Value → List Value
  | [] => []
  | v :: rest => v.reread :: rereadItems rest

def rereadEntries : List (String × Value) → List (String × Value)
  | [] => []
  | (k, v) :: rest => (k, v.reread) :: rereadEntries rest

end

theorem itemsLevels_le {items : List Value} {n : Nat} : itemsLevels items ≤ n ↔ ∀ v ∈ items, v.levels ≤ n := by
  induction items with
  | nil => simp [itemsLevels]
  | cons v rest ih => rw [itemsLevels, Nat.max_le, ih, List.forall_mem_cons]

theorem entriesLevels_le {entries : List (String × Value)} {n : Nat} :
    entriesLevels entries ≤ n ↔ ∀ e ∈ entries, e.2.levels ≤ n := by
  induction entries with
  | nil => simp [entriesLevels]
  | cons e rest ih => rw [entriesLevels, Nat.max_le, ih, List.forall_mem_cons]

/-- What there is nothing to put right of: codes are what is read of their names, and entries are in
order. -/
structure Sound (v : Value) : Prop where
  codes : ∀ e, Within (.err e) v → Json.errorCode e.code.name = e.code
  ordered : ∀ entries, Within (.map entries) v → Dict.Ordered entries

theorem Sound.of_item {items : List Value} (h : Sound (.list items)) {v : Value} (hv : v ∈ items) :
    v.Sound :=
  ⟨fun e he => h.codes e (.item hv he), fun entries he => h.ordered entries (.item hv he)⟩

theorem Sound.list {items : List Value} (h : ∀ v ∈ items, v.Sound) : Sound (.list items) where
  codes e he := by
    cases he with
    | item hv he => exact (h _ hv).codes e he
  ordered entries he := by
    cases he with
    | item hv he => exact (h _ hv).ordered entries he

theorem Sound.map {entries : List (String × Value)} (hordered : Dict.Ordered entries)
    (h : ∀ e ∈ entries, e.2.Sound) : Sound (.map entries) where
  codes e he := by
    cases he with
    | entry hv he => exact (h _ hv).codes e he
  ordered entries' he := by
    cases he with
    | self => exact hordered
    | entry hv he => exact (h _ hv).ordered entries' he

theorem Sound.err {e : ScriptError} (h : Json.errorCode e.code.name = e.code) : Sound (.err e) where
  codes e' he := by
    cases he
    exact h
  ordered entries he := by cases he

theorem Sound.of_entry {entries : List (String × Value)} (h : Sound (.map entries))
    {e : String × Value} (he : e ∈ entries) : e.2.Sound :=
  ⟨fun c hc => h.codes c (.entry he hc), fun es hes => h.ordered es (.entry he hes)⟩

mutual

/-- Nothing is put right of what is sound. -/
theorem reread_self : (v : Value) → v.Sound → v.reread = v
  | .null, _ | .bool _, _ | .int _, _ | .float _, _ | .str _, _ | .obj _, _ => rfl
  | .err e, h => by rw [reread, h.codes e (.self _)]
  | .list items, h => by rw [reread, rereadItems_self items fun _ hv => h.of_item hv]
  | .map entries, h => by
    rw [reread, rereadEntries_self entries fun _ he => h.of_entry he,
      (h.ordered entries (.self _)).ofList_self]

theorem rereadItems_self : (items : List Value) → (∀ v ∈ items, v.Sound) → rereadItems items = items
  | [], _ => rfl
  | v :: rest, h => by
    rw [rereadItems, reread_self v (h v List.mem_cons_self),
      rereadItems_self rest fun _ hu => h _ (List.mem_cons_of_mem _ hu)]

theorem rereadEntries_self : (entries : List (String × Value)) → (∀ e ∈ entries, e.2.Sound) →
    rereadEntries entries = entries
  | [], _ => rfl
  | (k, v) :: rest, h => by
    rw [rereadEntries, reread_self v (h _ List.mem_cons_self),
      rereadEntries_self rest fun _ he => h _ (List.mem_cons_of_mem _ he)]

end

end Value

/-- The name of a code that has been read is read as that code. -/
theorem ErrorCode.read_name_of_read {text : String} {code : ErrorCode} (h : read text = some code) :
    read code.name = some code := by
  unfold read at h
  dsimp only at h
  split at h
  · rename_i e hfind
    cases h
    exact read_name_of_builtin e (List.mem_of_find?_eq_some hfind)
  · rename_i hfind
    split at h
    · rename_i rest hupper
      cases h
      -- The name of a custom code is in upper case already.
      have hname : (ErrorCode.custom (String.ofList (Text.upper text.toList))).name.toList =
          Text.upper text.toList := String.toList_ofList
      rw [read, hname, Text.upper_upper]
      rw [hfind]
      simp only [hupper]
    · cases h

namespace Json

open Value (levels itemsLevels entriesLevels reread rereadItems rereadEntries)

/-! ## Reading what was written -/

theorem int64?_toInt (n : Int64) : int64? (.int n.toInt) = some n := by
  have hlo : -2 ^ 63 ≤ n.toInt := n.le_toInt
  have hhi : n.toInt < 2 ^ 63 := n.toInt_lt
  rw [int64?, if_pos ⟨by omega, by omega⟩, Int64.ofInt_toInt]

/-- What is read behind a tag. -/
theorem value?_tagged (room : Nat) (tag : TypeTag) (content : Json) :
    value? (room + 1) (tagged tag content) = content? room tag content := by
  have htag : tag? (.str tag.name) = some tag := TypeTag.read_name tag
  simp [tagged, value?, required?, once?, countField, field?, hasContent, contentField?, htag]

theorem error?_ofError (e : ScriptError) :
    error? (ofError e) = some { e with code := errorCode e.code.name } := by
  obtain ⟨code, _ | message⟩ := e <;>
    simp [ofError, error?, structFields?, required?, optional?, once?, countField, field?, List.lookup_cons, str?,
      optionalStr?]

/-- Content that nests no further is read where there is room for the tag. -/
theorem value?_scalar {v : Value} {tag : TypeTag} {content : Json} (hv : ofValue v = tagged tag content)
    (hlevels : v.levels = 1) (hread : ∀ room, content? room tag content = some v.reread) (room : Nat) :
    value? room (ofValue v) = if v.levels ≤ room then some v.reread else none := by
  rw [hv, hlevels]
  cases room with
  | zero => rfl
  | succ room => rw [value?_tagged, hread, if_pos (Nat.le_add_left 1 room)]

mutual

/-- The written form of a value is read where there is room for it. -/
theorem value?_ofValue (room : Nat) : (v : Value) →
    value? room (ofValue v) = if v.levels ≤ room then some v.reread else none
  | .null => by
    cases room with
    | zero => rfl
    | succ room =>
      rw [levels, if_pos (Nat.le_add_left 1 room)]
      · rfl
      all_goals nofun
  | .bool _ => value?_scalar rfl rfl (fun _ => rfl) room
  | .str _ => value?_scalar rfl rfl (fun _ => rfl) room
  | .float _ => value?_scalar rfl rfl (fun _ => rfl) room
  | .int n => value?_scalar rfl rfl (fun _ => by simp only [content?, scalar?, int64?_toInt, reread]) room
  | .obj id =>
    value?_scalar rfl rfl (fun _ => by simp only [content?, scalar?, int64?_toInt, Option.map_some, reread]) room
  | .err e => by
    match room with
    | 0 | 1 => rfl
    | room + 2 =>
      rw [ofValue, value?_tagged, content?, error?_ofError, levels, if_pos (Nat.le_add_left 2 room)]
      rfl
  | .list items => by
    match room with
    | 0 | 1 => rfl
    | room + 2 =>
      rw [ofValue, value?_tagged, content?, items?_ofItems room items, levels, reread]
      by_cases hroom : itemsLevels items ≤ room
      · rw [if_pos hroom, if_pos (Nat.add_le_add_right hroom 2)]
        rfl
      · rw [if_neg hroom, if_neg fun h => hroom (Nat.le_of_add_le_add_right h)]
        rfl
  | .map entries => by
    match room with
    | 0 | 1 => rfl
    | room + 2 =>
      rw [ofValue, value?_tagged, content?, entries?_ofEntries room entries, levels, reread]
      by_cases hroom : entriesLevels entries ≤ room
      · rw [if_pos hroom, if_pos (Nat.add_le_add_right hroom 2)]
        rfl
      · rw [if_neg hroom, if_neg fun h => hroom (Nat.le_of_add_le_add_right h)]
        rfl

theorem items?_ofItems (room : Nat) : (items : List Value) →
    items? room (ofItems items) = if itemsLevels items ≤ room then some (rereadItems items) else none
  | [] => by simp only [ofItems, items?, itemsLevels, Nat.zero_le, if_true, rereadItems]
  | v :: rest => by
    rw [ofItems, items?, value?_ofValue room v, items?_ofItems room rest, itemsLevels, rereadItems]
    by_cases hv : v.levels ≤ room <;> by_cases hrest : itemsLevels rest ≤ room <;>
      simp only [Nat.max_le, hv, hrest, and_self, and_true, and_false, if_true, if_false]

theorem entries?_ofEntries (room : Nat) : (entries : List (String × Value)) →
    entries? room (ofEntries entries) =
      if entriesLevels entries ≤ room then some (rereadEntries entries) else none
  | [] => by simp only [ofEntries, entries?, entriesLevels, Nat.zero_le, if_true, rereadEntries]
  | (k, v) :: rest => by
    rw [ofEntries, entries?, value?_ofValue room v, entries?_ofEntries room rest, entriesLevels,
      rereadEntries]
    by_cases hv : v.levels ≤ room <;> by_cases hrest : entriesLevels rest ≤ room <;>
      simp only [Nat.max_le, hv, hrest, and_self, and_true, and_false, if_true, if_false]

end

/-! ## Whatever is read -/

theorem errorCode_name (text : String) : errorCode (errorCode text).name = errorCode text := by
  unfold errorCode
  cases hread : ErrorCode.read text with
  | none => rw [Option.getD_none, ErrorCode.name, hread, Option.getD_none]
  | some code => rw [Option.getD_some, ErrorCode.read_name_of_read hread, Option.getD_some]

/-- What is read with so much room takes no more of it, and there is nothing in it to put right. -/
def Fitting (room : Nat) (v : Value) : Prop := v.levels ≤ room ∧ v.Sound

theorem error?_sound {j : Json} {e : ScriptError} (h : error? j = some e) :
    errorCode e.code.name = e.code := by
  simp only [error?, Option.bind_eq_bind, Option.bind_eq_some_iff, Option.pure_def, Option.some.injEq] at h
  obtain ⟨fields, -, field, -, text, -, message, -, rfl⟩ := h
  exact errorCode_name text

theorem scalar?_fitting {room : Nat} {tag : TypeTag} {j : Json} {v : Value} (h : scalar? tag j = some v) :
    Fitting (room + 1) v := by
  have hleaf {v : Value} (hlevels : v.levels = 1) (herr : ∀ e, ¬Value.Within (.err e) v)
      (hmap : ∀ entries, ¬Value.Within (.map entries) v) : Fitting (room + 1) v :=
    ⟨hlevels ▸ Nat.le_add_left 1 room, fun e he => absurd he (herr e), fun es hes => absurd hes (hmap es)⟩
  unfold scalar? at h
  split at h
  · cases h
    exact hleaf rfl nofun nofun
  · cases h
    exact hleaf rfl nofun nofun
  · cases h
    exact hleaf rfl nofun nofun
  · split at h
    · cases h
      exact hleaf rfl nofun nofun
    · cases h
      exact hleaf rfl nofun nofun
  · cases h
    exact hleaf rfl nofun nofun
  · obtain ⟨n, -, rfl⟩ := Option.map_eq_some_iff.mp h
    exact hleaf rfl nofun nofun
  · cases h

theorem items?_fitting {room : Nat} (hroom : ∀ j v, value? room j = some v → Fitting room v)
    {js : List Json} {items : List Value} (h : items? room js = some items) :
    ∀ v ∈ items, Fitting room v := by
  induction js generalizing items with
  | nil =>
    cases h
    exact nofun
  | cons j rest ih =>
    rw [items?] at h
    split at h
    · rename_i v vs hv hvs
      cases h
      intro u hu
      rcases List.mem_cons.mp hu with rfl | hu
      · exact hroom j _ hv
      · exact ih hvs u hu
    · cases h

theorem entries?_fitting {room : Nat} (hroom : ∀ j v, value? room j = some v → Fitting room v)
    {fields : List (String × Json)} {entries : List (String × Value)}
    (h : entries? room fields = some entries) : ∀ e ∈ entries, Fitting room e.2 := by
  induction fields generalizing entries with
  | nil =>
    cases h
    exact nofun
  | cons f rest ih =>
    rw [entries?] at h
    split at h
    · rename_i v es hv hes
      cases h
      intro e he
      rcases List.mem_cons.mp he with rfl | he
      · exact hroom _ _ hv
      · exact ih hes e he
    · cases h

theorem content?_fitting {room : Nat} (hroom : ∀ r < room, ∀ j v, value? r j = some v → Fitting r v)
    {tag : TypeTag} {j : Json} {v : Value} (h : content? room tag j = some v) : Fitting (room + 1) v := by
  unfold content? at h
  split at h
  · rename_i items room
    obtain ⟨vs, hvs, rfl⟩ := Option.map_eq_some_iff.mp h
    have hitems := items?_fitting (hroom room (Nat.lt_succ_self _)) hvs
    exact ⟨Nat.add_le_add_right (Value.itemsLevels_le.mpr fun v hv => (hitems v hv).1) 2,
      .list fun v hv => (hitems v hv).2⟩
  · rename_i fields room
    obtain ⟨es, hes, rfl⟩ := Option.map_eq_some_iff.mp h
    have hentries := entries?_fitting (hroom room (Nat.lt_succ_self _)) hes
    exact ⟨Nat.add_le_add_right (Value.entriesLevels_le.mpr fun e he =>
        (hentries e (Dict.mem_of_mem_ofList he)).1) 2,
      .map (.ofList es) fun e he => (hentries e (Dict.mem_of_mem_ofList he)).2⟩
  · obtain ⟨e, he, rfl⟩ := Option.map_eq_some_iff.mp h
    exact ⟨Nat.le_add_left 2 _, .err (error?_sound he)⟩
  · exact scalar?_fitting h

/-- The content of a value is read as content. -/
theorem contentField?_eq {room : Nat} {tag : TypeTag} {fields : List (String × Json)} {found : Option Value}
    (h : contentField? room tag fields = some found) : ∃ j, found = content? room tag j := by
  induction fields with
  | nil => cases h
  | cons f rest ih =>
    rw [contentField?] at h
    split at h
    · cases h
      exact ⟨_, rfl⟩
    · exact ih h

/-- Induction on the room. -/
theorem value?_fitting (room : Nat) : ∀ j v, value? room j = some v → Fitting room v := by
  induction room using Nat.strongRecOn with
  | ind room ih =>
    intro j v h
    have hcontent {r : Nat} (hr : room = r + 1) {tag : TypeTag} {j : Json} {v : Value}
        (h : content? r tag j = some v) : Fitting room v :=
      hr ▸ content?_fitting (fun r' hr' => ih r' (by omega)) h
    unfold value? at h
    split at h
    · split at h
      · cases h
      · split at h
        · cases h
        · split at h
          · split at h
            · rename_i found hfound
              obtain ⟨j, rfl⟩ := contentField?_eq hfound
              exact hcontent rfl h
            · split at h
              · cases h
                exact ⟨Nat.le_add_left 1 _, nofun, nofun⟩
              · cases h
          · cases h
    · split at h
      · exact hcontent rfl h
      · cases h
    · cases h

end Json

end Lineage
