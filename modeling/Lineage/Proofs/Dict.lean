/-
  Lineage.Proofs.Dict

  What is in dictionaries, and when they are the same.

  `get?_remove` needs the order, as only one entry is removed.  With the order,
  dictionaries are equal as soon as every look-up is (`Ordered.ext`).  Of dictionaries that
  carry their order the same holds without a hypothesis.
-/
import Mathlib.Data.List.Forall2
import Lineage.Dict

namespace Lineage.Dict

universe u v

variable {κ : Type u} {α : Type v} [Ord κ]

/-! ## Entries -/

/-- What is found is there. -/
theorem mem_of_get? [Std.LawfulEqOrd κ] {d : Dict κ α} {key : κ} {value : α}
    (h : get? d key = some value) : (key, value) ∈ d := by
  induction d with
  | nil => cases h
  | cons head rest ih =>
    obtain ⟨k, v⟩ := head
    simp only [get?] at h
    split at h
    · rename_i hk
      obtain rfl : key = k := Std.LawfulEqOrd.compare_eq_iff_eq.mp hk
      cases h
      exact List.mem_cons_self
    · exact List.mem_cons_of_mem _ (ih h)

theorem has_of_get? {d : Dict κ α} {key : κ} {value : α} (h : d.get? key = some value) :
    d.has key = true := by
  rw [has, h]
  rfl

theorem get?_eq_none_iff {d : Dict κ α} {key : κ} : d.get? key = none ↔ ¬d.has key = true :=
  Option.not_isSome_iff_eq_none.symm

theorem mem_foldl_put {entries : List (κ × α)} {d : Dict κ α} {e : κ × α}
    (h : e ∈ entries.foldl (fun d e => put d e.1 e.2) d) : e ∈ entries ∨ e ∈ d := by
  induction entries generalizing d with
  | nil => exact .inr h
  | cons first rest ih =>
    rcases ih h with hrest | hput
    · exact .inl (List.mem_cons_of_mem _ hrest)
    · rcases mem_put hput with rfl | hd
      · exact .inl List.mem_cons_self
      · exact .inr hd

/-- Nothing is in a dictionary but the entries that it is made of. -/
theorem mem_of_mem_ofList {entries : List (κ × α)} {e : κ × α} (h : e ∈ ofList entries) : e ∈ entries :=
  (mem_foldl_put h).elim id fun hnil => nomatch hnil

/-! ## Looking up -/

/-- What is there is found, as no two entries have one key. -/
theorem get?_of_mem [Std.TransOrd κ] [Std.LawfulEqOrd κ] {d : Dict κ α} (h : d.Ordered) {key : κ}
    {value : α} (hmem : (key, value) ∈ d) : get? d key = some value := by
  induction d with
  | nil => cases hmem
  | cons head rest ih =>
    obtain ⟨k, v⟩ := head
    obtain ⟨hhead, hrest⟩ := List.pairwise_cons.mp h
    rcases List.mem_cons.mp hmem with heq | hmem
    · cases heq
      simp only [get?, Std.ReflCmp.compare_self, if_true]
    · have hlt : compare k key = .lt := hhead _ hmem
      have hne : compare key k ≠ .eq := by
        intro heq
        obtain rfl : key = k := Std.LawfulEqOrd.compare_eq_iff_eq.mp heq
        have hself : compare key key = .eq := Std.ReflCmp.compare_self
        rw [hself] at hlt
        cases hlt
      simp only [get?, if_neg hne]
      exact ih hrest hmem

section

variable [Std.LawfulEqOrd κ] [DecidableEq κ]

theorem get?_put (d : Dict κ α) (key other : κ) (value : α) :
    get? (put d key value) other = if other = key then some value else get? d other := by
  by_cases h : other = key
  · rw [if_pos h, h]
    exact get?_put_self d key value
  · rw [if_neg h]
    exact get?_put_ne d value h

theorem get?_remove {d : Dict κ α} (h : d.Ordered) (key other : κ) :
    get? (remove d key) other = if other = key then none else get? d other := by
  by_cases hk : other = key
  · rw [if_pos hk, hk]
    exact get?_remove_self key h
  · rw [if_neg hk]
    exact get?_remove_ne d hk

/-- Entries that are chosen by their keys. -/
theorem get?_filter (p : κ → Bool) (d : Dict κ α) (key : κ) :
    get? (d.filter fun e => p e.1) key = if p key then get? d key else none := by
  induction d with
  | nil => rw [List.filter_nil, get?_nil, ite_self]
  | cons head rest ih =>
    obtain ⟨k, v⟩ := head
    simp only [List.filter_cons]
    by_cases hk : key = k
    · subst hk
      by_cases hp : p key = true
      · simp only [hp, if_true, get?, Std.LawfulEqOrd.compare_eq_iff_eq]
      · simp only [hp, if_false, ih, Bool.false_eq_true]
    · have hne : compare key k ≠ .eq := fun h => hk (Std.LawfulEqOrd.compare_eq_iff_eq.mp h)
      by_cases hp : p k = true
      · simp only [hp, if_true, get?, if_neg hne, ih]
      · simp only [hp, if_false, get?, if_neg hne, ih, Bool.false_eq_true]

/-- Entries that are put in one after the other, where no key is given two values. -/
theorem get?_foldl_put {entries : List (κ × α)} {f : κ → Option α}
    (hentries : ∀ e ∈ entries, f e.1 = some e.2) (d : Dict κ α) (key : κ) :
    get? (entries.foldl (fun d e => put d e.1 e.2) d) key =
      if key ∈ entries.map Prod.fst then f key else get? d key := by
  induction entries generalizing d with
  | nil => rw [List.map_nil, if_neg List.not_mem_nil]; rfl
  | cons e rest ih =>
    rw [List.foldl_cons, ih fun e' he' => hentries e' (List.mem_cons_of_mem _ he'), List.map_cons]
    by_cases hrest : key ∈ rest.map Prod.fst
    · rw [if_pos hrest, if_pos (List.mem_cons_of_mem _ hrest)]
    · rw [if_neg hrest, get?_put]
      by_cases hkey : key = e.1
      · rw [if_pos hkey, if_pos (hkey ▸ List.mem_cons_self), hkey, hentries e List.mem_cons_self]
      · rw [if_neg hkey, if_neg fun hmem => (List.mem_cons.mp hmem).elim hkey hrest]

/-- A dictionary is what its entries say, where no key is given two values. -/
theorem get?_ofList {entries : List (κ × α)} {f : κ → Option α}
    (hentries : ∀ e ∈ entries, f e.1 = some e.2)
    (hall : ∀ key value, f key = some value → (key, value) ∈ entries) (key : κ) :
    get? (ofList entries) key = f key := by
  rw [ofList, get?_foldl_put hentries, get?_nil]
  by_cases hmem : key ∈ entries.map Prod.fst
  · rw [if_pos hmem]
  · rw [if_neg hmem]
    cases hf : f key with
    | none => rfl
    | some value => exact absurd (List.mem_map_of_mem (hall key value hf)) hmem

end

/-! ## Equality -/

theorem Ordered.nodup [Std.LawfulEqOrd κ] {d : Dict κ α} (h : d.Ordered) : d.Nodup := by
  refine List.Pairwise.imp (fun {a b} hlt => ?_) h
  rintro rfl
  have hself : compare a.1 a.1 = .eq := Std.ReflCmp.compare_self
  rw [hself] at hlt
  cases hlt

/-- Where the entries of two dictionaries are related in pairs, so is what is found in them. -/
theorem rel_of_forall₂ {β : Type v} {R : α → β → Prop} {d : Dict κ α} {e : Dict κ β}
    (h : List.Forall₂ (fun x y => x.1 = y.1 ∧ R x.2 y.2) d e) (key : κ) :
    Option.Rel R (get? d key) (get? e key) := by
  induction h with
  | nil => exact .none
  | @cons x y d e hxy _ ih =>
    obtain ⟨k, a⟩ := x
    obtain ⟨l, b⟩ := y
    obtain ⟨rfl, hab⟩ : k = l ∧ R a b := hxy
    simp only [get?]
    split
    · exact .some hab
    · exact ih

section

variable [Std.TransOrd κ] [Std.LawfulEqOrd κ]

theorem get?_eq_some_iff {d : Dict κ α} (h : d.Ordered) {key : κ} {value : α} :
    get? d key = some value ↔ (key, value) ∈ d :=
  ⟨mem_of_get?, get?_of_mem h⟩

/-- Dictionaries with the same entries are the same. -/
theorem Ordered.ext_mem {d e : Dict κ α} (hd : d.Ordered) (he : e.Ordered)
    (h : ∀ entry, entry ∈ d ↔ entry ∈ e) : d = e := by
  refine List.Perm.eq_of_pairwise (fun a b _ _ hab hba => ?_) hd he
    ((List.perm_ext_iff_of_nodup hd.nodup he.nodup).mpr h)
  have hgt : compare b.1 a.1 = .gt := Std.OrientedCmp.gt_iff_lt.mpr hab
  rw [hgt] at hba
  cases hba

/-- Dictionaries in which the same is found are the same. -/
theorem Ordered.ext {d e : Dict κ α} (hd : d.Ordered) (he : e.Ordered)
    (h : ∀ key, get? d key = get? e key) : d = e :=
  hd.ext_mem he fun entry => by
    rw [← get?_eq_some_iff hd, ← get?_eq_some_iff he, h]

/-- Where what is found in two dictionaries is always related, so are their entries in pairs. -/
theorem Ordered.forall₂_of_rel {β : Type v} {R : α → β → Prop} {d : Dict κ α} {e : Dict κ β}
    (hd : d.Ordered) (he : e.Ordered) (h : ∀ key, Option.Rel R (get? d key) (get? e key)) :
    List.Forall₂ (fun x y => x.1 = y.1 ∧ R x.2 y.2) d e := by
  induction d generalizing e with
  | nil =>
    cases e with
    | nil => exact .nil
    | cons y e =>
      have hy := h y.1
      rw [get?_nil, get?, if_pos Std.ReflCmp.compare_self] at hy
      cases hy
  | cons x d ih =>
    obtain ⟨k, a⟩ := x
    obtain ⟨hhead, hrest⟩ := List.pairwise_cons.mp hd
    have hself {γ : Type v} (f : Dict κ γ) (c : γ) (j : κ) : get? ((j, c) :: f) j = some c := by
      rw [get?, if_pos Std.ReflCmp.compare_self]
    have hx := h k
    rw [hself] at hx
    cases e with
    | nil => cases hx
    | cons y e =>
      obtain ⟨l, b⟩ := y
      obtain ⟨hhead', hrest'⟩ := List.pairwise_cons.mp he
      have hy := h l
      rw [hself] at hy
      -- The least keys are the same, as each would not be found above the other.
      have hkl : compare k l = .eq := by
        cases hcmp : compare k l with
        | eq => rfl
        | lt =>
          rw [get?, if_neg (by rw [hcmp]; decide), get?_eq_none_of_lt] at hx
          · cases hx
          · exact fun e' he' => Std.TransCmp.lt_trans hcmp (hhead' e' he')
        | gt =>
          have hlt : compare l k = .lt := Std.OrientedCmp.gt_iff_lt.mp hcmp
          rw [get?, if_neg (by rw [hlt]; decide), get?_eq_none_of_lt] at hy
          · cases hy
          · exact fun e' he' => Std.TransCmp.lt_trans hlt (hhead e' he')
      obtain rfl : k = l := Std.LawfulEqOrd.compare_eq_iff_eq.mp hkl
      rw [get?, if_pos hkl] at hx
      obtain ⟨hab⟩ := hx
      refine .cons ⟨rfl, hab⟩ (ih hrest hrest' fun key => ?_)
      have hkey := h key
      simp only [get?] at hkey
      split at hkey
      · rename_i heq
        obtain rfl : key = k := Std.LawfulEqOrd.compare_eq_iff_eq.mp heq
        rw [get?_eq_none_of_lt hhead, get?_eq_none_of_lt hhead']
        exact .none
      · exact hkey

/-- Putting what is there changes nothing. -/
theorem Ordered.put_self [DecidableEq κ] {d : Dict κ α} (h : d.Ordered) {key : κ} {value : α}
    (hvalue : get? d key = some value) : Dict.put d key value = d :=
  (h.put key value).ext h fun other => by
    rw [get?_put]
    split
    · rename_i hother
      rw [hother, hvalue]
    · rfl

/-- The entries of a dictionary make up that dictionary. -/
theorem Ordered.ofList_self [DecidableEq κ] {d : Dict κ α} (h : d.Ordered) : Dict.ofList d = d :=
  (Ordered.ofList d).ext h fun key =>
    get?_ofList (fun _ he => get?_of_mem h he) (fun _ _ hf => mem_of_get? hf) key

end

end Lineage.Dict

/-! ## Dictionaries that carry their order -/

namespace Lineage.OrderedDict

universe u v

variable {κ : Type u} {α : Type v} [Ord κ] {d e : OrderedDict κ α} {key other : κ} {value : α}

theorem has_of_get? (h : d.get? key = some value) : d.has key = true :=
  Dict.has_of_get? h

theorem get?_eq_none_iff : d.get? key = none ↔ ¬d.has key = true :=
  Dict.get?_eq_none_iff

variable [Std.LawfulEqOrd κ]

theorem get?_remove_self (d : OrderedDict κ α) (key : κ) : (d.remove key).get? key = none :=
  Dict.get?_remove_self key d.ordered

theorem get?_remove_ne (d : OrderedDict κ α) (h : other ≠ key) :
    (d.remove key).get? other = d.get? other :=
  Dict.get?_remove_ne _ h

theorem get?_remove [DecidableEq κ] (d : OrderedDict κ α) (key other : κ) :
    (d.remove key).get? other = if other = key then none else d.get? other :=
  Dict.get?_remove d.ordered key other

variable [Std.TransOrd κ]

/-- Dictionaries in which the same is found are the same. -/
theorem ext_get? (h : ∀ key, d.get? key = e.get? key) : d = e :=
  OrderedDict.ext (d.ordered.ext e.ordered h)

theorem get?_put_self (d : OrderedDict κ α) (key : κ) (value : α) :
    (d.put key value).get? key = some value :=
  Dict.get?_put_self _ key value

theorem get?_put_ne (d : OrderedDict κ α) (value : α) (h : other ≠ key) :
    (d.put key value).get? other = d.get? other :=
  Dict.get?_put_ne _ value h

section

variable [DecidableEq κ]

theorem get?_put (d : OrderedDict κ α) (key other : κ) (value : α) :
    (d.put key value).get? other = if other = key then some value else d.get? other :=
  Dict.get?_put _ key other value

/-- The entries of a dictionary make up that dictionary. -/
theorem ofList_entries (d : OrderedDict κ α) : ofList d.entries = d :=
  OrderedDict.ext d.ordered.ofList_self

end

end Lineage.OrderedDict
