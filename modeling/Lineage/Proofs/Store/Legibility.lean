/-
  Lineage.Proofs.Store.Legibility

  What can be read of a store whose texts are all its own.

  Headers and methods always can.  An object cannot be read if, and only if, it has a
  property whose value is illegible (`Store.read_error_iff`), and there is no listing if,
  and only if, an object cannot be read that would be listed (`Store.list_error_iff`).
-/
import Lineage.Proofs.Json.Persistence
import Lineage.Proofs.Store.Places

namespace Lineage

-- Eight bytes are not to be computed with.
attribute [local irreducible] ObjectId.bytes

namespace DurableStore

variable {s : DurableStore} {α : Type}

/-- What is said of a text that cannot be read. -/
def illegible (id : ObjectId) : StoreError := .undecodable id "not the text of what belongs here"

/-- An object has a property whose value cannot be read. -/
def Blotted (s : DurableStore) (id : ObjectId) : Prop :=
  ∃ name v, (entryKey id name, Json.writeValue v) ∈ s.properties ∧ ¬v.Legible

/-! ## Entries -/

/-- What either gives something or fails in one way is done for all of a list, or fails for one. -/
theorem mapM_outcome {β γ : Type} (f : β → Except StoreError γ) (failure : StoreError) {entries : List β}
    (h : ∀ e ∈ entries, (∃ c, f e = .ok c) ∨ f e = .error failure) :
    ((∃ cs, entries.mapM f = .ok cs) ∧ ∀ e ∈ entries, ∃ c, f e = .ok c) ∨
      (entries.mapM f = .error failure ∧ ∃ e ∈ entries, f e = .error failure) := by
  induction entries with
  | nil => exact .inl ⟨⟨[], rfl⟩, nofun⟩
  | cons e rest ih =>
    rw [List.mapM_cons]
    rcases h e List.mem_cons_self with ⟨c, hc⟩ | hfailed
    · rcases ih fun e' he' => h e' (List.mem_cons_of_mem _ he') with ⟨⟨cs, hcs⟩, hall⟩ | ⟨hrest, e', he', hfailed⟩
      · rw [hc, hcs]
        refine .inl ⟨⟨c :: cs, rfl⟩, fun e' he' => ?_⟩
        rcases List.mem_cons.mp he' with rfl | he'
        · exact ⟨c, hc⟩
        · exact hall e' he'
      · rw [hc, hrest]
        exact .inr ⟨rfl, e', List.mem_cons_of_mem _ he', hfailed⟩
    · rw [hfailed]
      exact .inr ⟨rfl, e, List.mem_cons_self, hfailed⟩

theorem readEntry_outcome (id : ObjectId) (name : String) (read : Json → Option α) (text : String) :
    (∃ a, (Json.read text).bind read = some a ∧ Spreads.readEntry id read (entryKey id name, text) = .ok (name, a)) ∨
      ((Json.read text).bind read = none ∧
        Spreads.readEntry id read (entryKey id name, text) = .error (illegible id)) := by
  simp only [Spreads.readEntry, entryName?_entryKey, decode]
  cases (Json.read text).bind read with
  | none => exact .inr ⟨rfl, rfl⟩
  | some a => exact .inl ⟨a, rfl, rfl⟩

/-- The entries of an object are read if each of them is. -/
theorem owned_outcome {write : α → Json} {t : Table}
    (ht : ∀ e ∈ t, ∃ id name a, e = (entryKey id name, (write a).write)) (id : ObjectId)
    (read : Json → Option α) :
    ((∃ d, owned id read t = .ok d) ∧ ∀ name a, (entryKey id name, (write a).write) ∈ t →
        (Json.read (write a).write).bind read ≠ none) ∨
      (owned id read t = .error (illegible id) ∧ ∃ name a, (entryKey id name, (write a).write) ∈ t ∧
        (Json.read (write a).write).bind read = none) := by
  rw [Spreads.owned_eq]
  have hchosen : ∀ e ∈ t.filter fun e => id.bytes.isPrefixOf e.1,
      e ∈ t ∧ ∃ name a, e = (entryKey id name, (write a).write) := by
    intro e he
    obtain ⟨he, hprefix⟩ := List.mem_filter.mp he
    obtain ⟨other, name, a, rfl⟩ := ht e he
    obtain rfl := prefix_entryKey_iff.mp (isPrefixOf_iff.mp hprefix)
    exact ⟨he, name, a, rfl⟩
  -- Each entry can be read or fails in the one way, so all of them together do.
  have heach : ∀ e ∈ t.filter fun e => id.bytes.isPrefixOf e.1,
      (∃ c, Spreads.readEntry id read e = .ok c) ∨ Spreads.readEntry id read e = .error (illegible id) := by
    intro e he
    obtain ⟨-, name, a, rfl⟩ := hchosen e he
    rcases readEntry_outcome id name read (write a).write with ⟨b, -, hb⟩ | ⟨-, hfailed⟩
    · exact .inl ⟨_, hb⟩
    · exact .inr hfailed
  rcases mapM_outcome (Spreads.readEntry id read) (illegible id) heach with
    ⟨⟨contents, hcontents⟩, hall⟩ | ⟨hfailed, e, he, hentry⟩
  · rw [hcontents]
    refine .inl ⟨⟨_, rfl⟩, fun name a hmem hnone => ?_⟩
    obtain ⟨c, hc⟩ := hall _ (List.mem_filter.mpr ⟨hmem, isPrefixOf_iff.mpr (prefix_entryKey_iff.mpr rfl)⟩)
    rcases readEntry_outcome id name read (write a).write with ⟨b, hb, -⟩ | ⟨-, hfailed⟩
    · rw [hnone] at hb
      cases hb
    · rw [hc] at hfailed
      cases hfailed
  · rw [hfailed]
    obtain ⟨he, name, a, rfl⟩ := hchosen e he
    refine .inr ⟨rfl, name, a, he, ?_⟩
    rcases readEntry_outcome id name read (write a).write with ⟨b, -, hb⟩ | ⟨hnone, -⟩
    · rw [hentry] at hb
      cases hb
    · exact hnone

/-! ## Records -/

/-- A record is read unless it has an illegible value. -/
theorem Own.record_outcome (hs : s.Own) (h : Header) :
    ((∃ r, s.record h = .ok r) ∧ ¬s.Blotted h.id) ∨ (s.record h = .error (illegible h.id) ∧ s.Blotted h.id) := by
  unfold record
  rcases owned_outcome hs.values h.id (Json.value? Json.maxDepth) with ⟨⟨properties, hproperties⟩, hall⟩ | ⟨hfailed, hblot⟩
  · rw [hproperties]
    rcases owned_outcome hs.methods h.id (Json.method? Json.maxDepth) with ⟨⟨methods, hmethods⟩, -⟩ | ⟨-, -, m, -, hnone⟩
    · rw [hmethods]
      exact .inl ⟨⟨_, rfl⟩, fun ⟨name, v, hmem, hv⟩ => hv (hall name v hmem)⟩
    · -- Methods are always read back.
      have hread := Json.readMethod_writeMethod m
      rw [Json.readMethod, Json.writeMethod, hnone] at hread
      cases hread
  · rw [hfailed]
    obtain ⟨name, v, hmem, hnone⟩ := hblot
    exact .inr ⟨rfl, name, v, hmem, fun hv => hv hnone⟩

/-- The headers of its objects are all that a listing depends on.  Induction on the headers. -/
theorem Own.listFrom_error_iff (hs : s.Own) {recycledToo : Bool} {entries : Table}
    (hentries : ∀ e ∈ entries, e ∈ s.objects) :
    (∃ e, s.listFrom recycledToo entries = .error e) ↔
      ∃ h : Header, h.Timed ∧ (h.id.bytes, h.toJson.write) ∈ entries ∧ s.Blotted h.id ∧
        (h.recycled = true → recycledToo = true) := by
  induction entries with
  | nil =>
    constructor
    · rintro ⟨e, he⟩
      cases he
    · rintro ⟨_, _, hmem, _⟩
      cases hmem
  | cons e rest ih =>
    obtain ⟨h, htimed, rfl⟩ := hs.headers e (hentries e List.mem_cons_self)
    have hdecode : decode h.id Header.ofJson? h.toJson.write = .ok h := by
      rw [decode, Header.read_write htimed]
    -- What fails in the rest fails in all.
    have hlater : (∃ e, s.listFrom recycledToo rest = .error e) →
        ∃ g : Header, g.Timed ∧ (g.id.bytes, g.toJson.write) ∈ (h.id.bytes, h.toJson.write) :: rest ∧
          s.Blotted g.id ∧ (g.recycled = true → recycledToo = true) := fun hfailed => by
      obtain ⟨g, hg, hmem, hblot⟩ := (ih fun e he => hentries e (List.mem_cons_of_mem _ he)).mp hfailed
      exact ⟨g, hg, List.mem_cons_of_mem _ hmem, hblot⟩
    -- A header is known by the text it is written as.
    have hfirst {g : Header} (hg : g.Timed) (heq : (g.id.bytes, g.toJson.write) = (h.id.bytes, h.toJson.write)) :
        g = h := by
      have htext := Header.read_write hg
      rw [(Prod.mk.inj heq).2, Header.read_write htimed] at htext
      exact (Option.some.inj htext).symm
    simp only [listFrom, ObjectId.ofBytes?_bytes, hdecode, bind, Except.bind]
    -- A record that is left out is not read, so its values do not matter.
    by_cases hskip : (h.recycled && !recycledToo) = true
    · rw [if_pos hskip]
      refine ⟨hlater, ?_⟩
      rintro ⟨g, hg, hmem, hblot, hlisted⟩
      rcases List.mem_cons.mp hmem with heq | hmem
      · obtain rfl := hfirst hg heq
        rw [Bool.and_eq_true, Bool.not_eq_true'] at hskip
        rw [hlisted hskip.1] at hskip
        cases hskip.2
      · exact (ih fun e he => hentries e (List.mem_cons_of_mem _ he)).mpr ⟨g, hg, hmem, hblot, hlisted⟩
    · rw [if_neg hskip]
      rcases hs.record_outcome h with ⟨⟨r, hr⟩, hclear⟩ | ⟨hfailed, hblot⟩
      · rw [hr]
        cases hrest : s.listFrom recycledToo rest with
        | error e => exact ⟨fun _ => hlater ⟨e, hrest⟩, fun _ => ⟨e, rfl⟩⟩
        | ok records =>
          constructor
          · rintro ⟨e, he⟩
            cases he
          rintro ⟨g, hg, hmem, hblot, hlisted⟩
          rcases List.mem_cons.mp hmem with heq | hmem
          · obtain rfl := hfirst hg heq
            exact absurd hblot hclear
          · obtain ⟨e, he⟩ := (ih fun e he => hentries e (List.mem_cons_of_mem _ he)).mpr
              ⟨g, hg, hmem, hblot, hlisted⟩
            rw [hrest] at he
            cases he
      · rw [hfailed]
        refine ⟨fun _ => ⟨h, htimed, List.mem_cons_self, hblot, fun hrecycled => ?_⟩, fun _ => ⟨_, rfl⟩⟩
        rw [hrecycled, Bool.true_and, Bool.not_eq_true', Bool.not_eq_false] at hskip
        exact hskip

end DurableStore

namespace Store

variable {s : Store}

/-- An object is stored with a property whose value cannot be read.  In memory nothing is written. -/
def Blotted : Store → ObjectId → Prop
  | .memory _, _ => False
  | .durable s, id => (Store.durable s).place id ≠ none ∧ s.Blotted id

theorem Blotted.stored {id : ObjectId} (h : s.Blotted id) : ∃ p, s.place id = some p := by
  cases s with
  | memory s => exact h.elim
  | durable s => exact Option.ne_none_iff_exists'.mp h.1

/-- An object cannot be read if it has an illegible value, and only then. -/
theorem read_error_iff (hs : s.Own) (id : ObjectId) (e : StoreError) :
    s.read id = .error e ↔ s.Blotted id ∧ e = DurableStore.illegible id := by
  cases s with
  | memory s =>
    refine ⟨fun he => ?_, fun h => h.1.elim⟩
    cases he
  | durable s =>
    have hown : s.Own := hs
    rw [read, DurableStore.read, Blotted, place]
    rcases hown.header id with ⟨-, hheader⟩ | ⟨h, -, rfl, hheader⟩
    · rw [hheader]
      refine ⟨fun he => ?_, fun hblot => absurd rfl hblot.1.1⟩
      cases he
    · rw [hheader]
      dsimp only
      rcases hown.record_outcome h with ⟨⟨r, hr⟩, hclear⟩ | ⟨hfailed, hblot⟩
      · rw [hr]
        refine ⟨fun he => ?_, fun hblot => absurd hblot.1.2 hclear⟩
        cases he
      · rw [hfailed]
        exact ⟨fun he => ⟨⟨Option.some_ne_none _, hblot⟩, (Except.error.inj he).symm⟩, fun he => congrArg _ he.2.symm⟩

/-- There is no listing if an object that would be listed cannot be read, and only then. -/
theorem list_error_iff (hs : s.Own) (horder : s.Ordered) (hc : s.isConnected = true) (recycledToo : Bool) :
    (∃ e, (list recycledToo s).1 = .error e) ↔
      ∃ id p, s.place id = some p ∧ s.Blotted id ∧ (p.recycled = true → recycledToo = true) := by
  cases s with
  | memory s =>
    rw [list, either, lift_eq (MemoryStore.list_run hc recycledToo)]
    constructor
    · rintro ⟨e, he⟩
      cases he
    · rintro ⟨_, _, _, hblot, _⟩
      exact hblot.elim
  | durable s =>
    have hown : s.Own := hs
    have hobjects : s.objects.Ordered := horder
    rw [list, either, lift_eq (DurableStore.list_run hc recycledToo)]
    refine (hown.listFrom_error_iff fun _ he => he).trans ⟨?_, ?_⟩
    · rintro ⟨h, htimed, hmem, hblot, hlisted⟩
      have hplace : (Store.durable s).place h.id = some ⟨h.parent, h.recycled⟩ := by
        rw [place, DurableStore.header_of_text htimed (Dict.get?_of_mem hobjects hmem)]
      exact ⟨h.id, _, hplace, ⟨by rw [hplace]; exact Option.some_ne_none _, hblot⟩, hlisted⟩
    · rintro ⟨id, p, hplace, hblot, hlisted⟩
      cases htext : s.objects.get? id.bytes with
      | none =>
        rw [place, DurableStore.header, htext] at hplace
        cases hplace
      | some text =>
        have hmem := Dict.mem_of_get? htext
        obtain ⟨h, htimed, heq⟩ := hown.headers _ hmem
        obtain ⟨hkey, rfl⟩ := Prod.mk.inj heq
        obtain rfl := DurableStore.bytes_inj hkey
        rw [place, DurableStore.header_of_text htimed htext] at hplace
        cases hplace
        exact ⟨h, htimed, hmem, hblot.2, hlisted⟩

end Store

end Lineage
