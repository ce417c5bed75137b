/-
  Lineage.Proofs.Store.HeaderText

  The id in the text of a header.

  A header whose times are moments is read back from its text (`Header.read_write`).  If the
  text of any other header can be read at all, the header that is read has the id of the
  one that was written (`Header.id_of_read`).
-/
import Lineage.Proofs.Json.Text
import Lineage.Proofs.Timestamp
import Lineage.Store.Durable

namespace Lineage

namespace Json

/-! ## The first field -/

/-- An object that has been read begins with the fields that were read first. -/
theorem takeFields_done (fuel : Nat) {done : List (String × Json)} {usable : Bool}
    {text : List Char} {j : Json} {after : List Char}
    (h : takeFields fuel done usable text = some (j, after)) :
    j = .unusable ∨ ∃ more, j = .obj (done.reverse ++ more) := by
  induction fuel generalizing done usable text with
  | zero => simp only [takeFields] at h; cases h
  | succ fuel ih =>
    simp only [takeFields] at h
    split at h
    · split at h
      · cases h
      · split at h
        · split at h
          · cases h
          · split at h
            · split at h
              · cases h
                exact .inr ⟨_, congrArg Json.obj List.reverse_cons⟩
              · cases h
                exact .inl rfl
            · rcases ih h with rfl | ⟨more, rfl⟩
              · exact .inl rfl
              · exact .inr ⟨_, congrArg Json.obj
                  ((congrArg (· ++ more) List.reverse_cons).trans (List.append_assoc _ _ _))⟩
            · cases h
        · cases h
    · cases h

/-- An object that starts with an id has that id. -/
theorem read_id {n : Int64} {text : String} {rest : List Char} {j : Json}
    (htext : text.toList =
      '\x7b' :: '"' :: 'i' :: 'd' :: '"' :: ':' :: ((toString n.toInt).toList ++ ',' :: rest))
    (h : read text = some j) : j = .unusable ∨ ∃ more, j = .obj (("id", .int n.toInt) :: more) := by
  have hquoted (tail : List Char) :
      takeQuoted ('i' :: 'd' :: '"' :: tail) = some (some "id", tail) := rfl
  have hcolon (tail : List Char) : skipBlanks (':' :: tail) = ':' :: tail :=
    skipBlanks_cons rfl tail
  have hcomma (tail : List Char) : skipBlanks (',' :: tail) = ',' :: tail :=
    skipBlanks_cons rfl tail
  have hquote (tail : List Char) : skipBlanks ('"' :: tail) = '"' :: tail :=
    skipBlanks_cons rfl tail
  have hbrace (tail : List Char) : skipBlanks ('\x7b' :: tail) = '\x7b' :: tail :=
    skipBlanks_cons rfl tail
  simp only [read, htext] at h
  split at h
  · rename_i value after hvalue
    split at h
    · cases h
      generalize 2 * _ + 2 = fuel at hvalue
      cases fuel with
      | zero => simp only [takeValue] at hvalue; cases hvalue
      | succ fuel =>
        -- The text is followed as far as the number after the first colon.
        simp only [takeValue, hbrace, hquote] at hvalue
        split at hvalue
        · rename_i heq
          cases heq
        · cases fuel with
          | zero => simp only [takeFields] at hvalue; cases hvalue
          | succ fuel =>
            simp only [takeFields, hquote, hquoted, hcolon] at hvalue
            split at hvalue
            · cases hvalue
            · rename_i item tail hitem
              obtain ⟨fuel, rfl⟩ : ∃ more, fuel = more + 1 := by
                cases fuel with
                | zero => simp only [takeValue] at hitem; cases hitem
                | succ fuel => exact ⟨fuel, rfl⟩
              rw [takeValue_int (.int64 n) (.cons (.inl rfl) _)] at hitem
              cases hitem
              simp only [hcomma] at hvalue
              exact takeFields_done _ hvalue
    · cases h
  · cases h

/-- A time that is read is a moment. -/
theorem timestamp?_valid {j : Json} {t : Timestamp} (h : timestamp? j = some t) : t.Valid := by
  obtain ⟨text, -, hread⟩ := Option.bind_eq_some_iff.mp h
  exact Timestamp.valid_of_read hread

end Json

/-! ## Headers -/

namespace Header

/-- The text of a header starts with its id. -/
theorem write_toJson (h : Header) : ∃ rest, h.toJson.write.toList =
    '\x7b' :: '"' :: 'i' :: 'd' :: '"' :: ':' :: ((toString h.id.number.toInt).toList ++ ',' :: rest) := by
  have hquote : Json.quote "id" ++ ":" = "\"id\":" := by decide
  simp only [toJson, Json.write, List.cons_append, Json.writeFields, String.intercalate_cons_cons,
    hquote, String.toList_append]
  exact ⟨_, by
    simp only [List.append_assoc]
    rfl⟩

theorem objectId?_int (id : ObjectId) : Json.objectId? (.int id.number.toInt) = some id := by
  have hlo : -2 ^ 63 ≤ id.number.toInt := id.number.le_toInt
  have hhi : id.number.toInt < 2 ^ 63 := id.number.toInt_lt
  simp only [Json.objectId?, Json.int64?]
  rw [if_pos ⟨by omega, by omega⟩]
  simp only [Option.map_some, Int64.ofInt_toInt]

theorem id_of_ofJson? {n : Int64} {more : List (String × Json)} {h : Header}
    (hread : ofJson? (.obj (("id", .int n.toInt) :: more)) = some h) : h.id = ⟨n⟩ := by
  have hint : Json.objectId? (.int n.toInt) = some ⟨n⟩ := objectId?_int ⟨n⟩
  simp only [ofJson?, Json.structFields?, Option.bind_eq_bind, Option.bind_some,
    Option.bind_eq_some_iff, Option.pure_def, Option.some.injEq] at hread
  obtain ⟨field, hfield, id, hid, -, -, parent, -, -, -, created, -, -, -, modified, -, recycled, -,
    rfl⟩ := hread
  have hfirst : field = .int n.toInt := by
    simp only [Json.required?, Json.once?] at hfield
    split at hfield
    · cases hfield
      rfl
    · cases hfield
  rw [hfirst, hint] at hid
  cases hid
  rfl

/-- The id of a header that is read is the id of the header that was written. -/
theorem id_of_read {h h' : Header} (hread : (Json.read h.toJson.write).bind ofJson? = some h') :
    h'.id = h.id := by
  obtain ⟨j, hj, hheader⟩ := Option.bind_eq_some_iff.mp hread
  obtain ⟨rest, htext⟩ := h.write_toJson
  rcases Json.read_id htext hj with rfl | ⟨more, rfl⟩
  · cases hheader
  · exact id_of_ofJson? hheader

/-- The times of a header are moments. -/
structure Timed (h : Header) : Prop where
  created : h.created.Valid
  modified : h.modified.Valid

/-- Whatever a header is read from, its times have been read as moments. -/
theorem timed_of_ofJson? {j : Json} {h : Header} (hread : ofJson? j = some h) : h.Timed := by
  simp only [ofJson?, Option.bind_eq_bind, Option.bind_eq_some_iff, Option.pure_def,
    Option.some.injEq] at hread
  obtain ⟨fields, -, _, -, id, -, _, -, parent, -, _, -, created, hcreated, _, -, modified,
    hmodified, recycled, -, rfl⟩ := hread
  exact ⟨Json.timestamp?_valid hcreated, Json.timestamp?_valid hmodified⟩

theorem toJson_plain (h : Header) : h.toJson.Plain := by
  have hfields : ∀ f ∈ Json.recycledField h.recycled, f.2.Plain := by
    intro f hf
    unfold Json.recycledField at hf
    split at hf
    · cases List.mem_singleton.mp hf
      trivial
    · cases hf
  refine (Json.fieldsPlain_iff _).mpr fun f hf => ?_
  rcases List.mem_append.mp hf with hf | hf
  · simp only [List.mem_cons, List.not_mem_nil, or_false] at hf
    rcases hf with rfl | rfl | rfl | rfl
    · exact .int64 _
    · exact .int64 _
    · trivial
    · trivial
  · exact hfields f hf

theorem timestamp?_ofTimestamp {t : Timestamp} (h : t.Valid) :
    Json.timestamp? (Json.ofTimestamp t) = some t := by
  rw [Json.timestamp?, Json.ofTimestamp, Json.str?, Option.bind_some, Timestamp.read_write h]

theorem ofJson?_toJson {h : Header} (ht : h.Timed) : ofJson? h.toJson = some h := by
  obtain ⟨id, parent, created, modified, recycled⟩ := h
  have hcreated := timestamp?_ofTimestamp ht.created
  have hmodified := timestamp?_ofTimestamp ht.modified
  rw [toJson]
  generalize Json.ofTimestamp created = created' at hcreated
  generalize Json.ofTimestamp modified = modified' at hmodified
  cases recycled <;>
    simp [ofJson?, Json.structFields?, Json.required?, Json.optional?, Json.once?, Json.countField,
      Json.field?, List.lookup_cons, objectId?_int, hcreated, hmodified, Json.recycledField, Json.bool?]

/-- A header is read back from its text. -/
theorem read_write {h : Header} (ht : h.Timed) :
    (Json.read h.toJson.write).bind ofJson? = some h := by
  rw [Json.read_write h.toJson_plain, Option.bind_some, ofJson?_toJson ht]

end Header

end Lineage
