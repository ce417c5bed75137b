/-
  Lineage.Proofs.Value.Paths

  Containers within containers.

  A path of indices leads from a container to an element, a character or an entry of it,
  and on into that (`Value.follow`).  Replacing what is there makes every container on the
  way anew, from the inside out (`Value.replace`).  What has been put at the end of a path
  is found there, and nothing that lies off the path is changed, at any level
  (`Value.replace_updates`).
-/
import Lineage.Value.Sequence

namespace Lineage.Value

/-- What lies at the end of a path. -/
def follow : Value → List Value → Except ScriptError Value
  | c, [] => .ok c
  | c, i :: path => do
    let inner ← c.index i
    inner.follow path

/-- A container with another value at the end of a path.  What the last index leads to is not looked
up, as it need not be there. -/
def replace (v : Value) : Value → List Value → Except ScriptError Value
  | _, [] => .ok v
  | c, [i] => c.indexSet i v
  | c, i :: path => do
    let inner ← c.index i
    let changed ← replace v inner path
    c.indexSet i changed

/-- A container has come to have another value at the end of a path, and is the same elsewhere. -/
structure Updates (c : Value) (path : List Value) (v c' : Value) : Prop where
  found : c'.follow path = .ok v
  elsewhere : ∀ before i after, path = before ++ i :: after → ∀ j rest, j ≠ i →
    c'.follow (before ++ j :: rest) = c.follow (before ++ j :: rest)

variable {c c' i v : Value} {path : List Value}

theorem bind_eq_ok {α β : Type} {x : Except ScriptError α} {f : α → Except ScriptError β} {b : β}
    (h : x >>= f = .ok b) : ∃ a, x = .ok a ∧ f a = .ok b := by
  cases x with
  | error e => cases h
  | ok a => exact ⟨a, rfl, h⟩

/-! ## One container -/

section

variable {α : Type} {items : List α} {x : α} {n m : Int64} {k : Nat}

/-- The element at a position. -/
def elementAt (items : List α) (n : Int64) : Except ScriptError α := do
  itemAt items (← place n items.length)

theorem elementAt_set (hk : place n items.length = .ok k) : elementAt (items.set k x) n = .ok x := by
  obtain ⟨-, hlt⟩ := place_eq_ok_iff.mp hk
  have hk' : place n (items.set k x).length = .ok k := by rw [List.length_set]; exact hk
  rw [elementAt, hk']
  show itemAt (items.set k x) k = _
  rw [itemAt, List.getElem?_set_self hlt]

theorem elementAt_set_ne (hk : place n items.length = .ok k) (hne : m ≠ n) :
    elementAt (items.set k x) m = elementAt items m := by
  have hplace : place m (items.set k x).length = place m items.length := by rw [List.length_set]
  rw [elementAt, elementAt, hplace]
  cases hm : place m items.length with
  | error e => rfl
  | ok l =>
    -- Two positions with one place are one position.
    have hkl : k ≠ l := by
      rintro rfl
      refine hne (Int64.toInt_inj.mp ?_)
      rw [(place_eq_ok_iff.mp hm).1, (place_eq_ok_iff.mp hk).1]
    show itemAt (items.set k x) l = itemAt items l
    rw [itemAt, itemAt, List.getElem?_set_ne hkl]

end

theorem index_str (s : String) (n : Int64) : (str s).index (.int n) =
    (elementAt s.toList n).map fun c => .str (String.ofList [c]) := by
  simp only [index, elementAt]
  cases place n s.toList.length with
  | error e => rfl
  | ok k =>
    cases h : itemAt s.toList k with
    | error e => simp [h, Bind.bind, Except.bind, Except.map]
    | ok c => simp [h, Bind.bind, Except.bind, Except.map]; rfl

/-- The ways in which what is under an index can be replaced. -/
inductive Replaced : Value → Value → Value → Value → Prop where
  | element {items : List Value} {n : Int64} {k : Nat} {v : Value} :
      place n items.length = .ok k → Replaced (.list items) (.int n) v (.list (items.set k v))
  | character {s : String} {n : Int64} {k : Nat} {c : Char} : place n s.toList.length = .ok k →
      Replaced (.str s) (.int n) (.str (String.ofList [c])) (.str (String.ofList (s.toList.set k c)))
  | entry {entries : List (String × Value)} {key : String} {v : Value} :
      Replaced (.map entries) (.str key) v (.map (Dict.put entries key v))

theorem replaced_of_indexSet (h : c.indexSet i v = .ok c') : Replaced c i v c' := by
  match c, i, h with
  | .list items, .int n, h =>
    obtain ⟨k, hk, ⟨⟩⟩ := bind_eq_ok h
    exact .element hk
  | .map entries, .str key, h =>
    cases h
    exact .entry
  | .str s, .int n, h =>
    cases v with
    | str r =>
      obtain ⟨k, hk, h⟩ := bind_eq_ok h
      match hr : r.toList, h with
      | [x], h =>
        obtain rfl := Except.ok.inj h
        rw [← String.ofList_toList (s := r), hr]
        exact .character hk
    | _ => cases h

/-- What has been put under an index is found there. -/
theorem Replaced.found (h : Replaced c i v c') : c'.index i = .ok v := by
  cases h with
  | element hk => exact elementAt_set hk
  | character hk => rw [index_str, String.toList_ofList, elementAt_set hk]; rfl
  | entry => simp only [index, Dict.get?_put_self]

/-- What is under any other index is as before. -/
theorem Replaced.elsewhere (h : Replaced c i v c') {j : Value} (hj : j ≠ i) : c'.index j = c.index j := by
  cases h with
  | element hk =>
    cases j with
    | int m => exact elementAt_set_ne hk fun heq => hj (heq ▸ rfl)
    | _ => rfl
  | character hk =>
    cases j with
    | int m =>
      rw [index_str, index_str, String.toList_ofList, elementAt_set_ne hk fun heq => hj (heq ▸ rfl)]
    | _ => rfl
  | entry =>
    cases j with
    | str other => simp only [index, Dict.get?_put_ne _ _ fun heq => hj (congrArg Value.str heq)]
    | _ => rfl

/-! ## Paths -/

theorem replace_cons (hpath : path ≠ []) (c i v : Value) : replace v c (i :: path) = (do
    let inner ← c.index i
    let changed ← replace v inner path
    c.indexSet i changed) := by
  cases path with
  | nil => exact (hpath rfl).elim
  | cons j rest => rfl

theorem follow_of_index {inner : Value} (h : c.index i = .ok inner) (path : List Value) :
    c.follow (i :: path) = inner.follow path := by
  simp only [follow, h]
  rfl

theorem Replaced.follow_elsewhere (h : Replaced c i v c') {j : Value} (hj : j ≠ i)
    (path : List Value) : c'.follow (j :: path) = c.follow (j :: path) := by
  simp only [follow, h.elsewhere hj]

/-- What has been put at the end of a path is found there, and all else is as before.  Induction on
the path. -/
theorem replace_updates (h : replace v c path = .ok c') : Updates c path v c' := by
  induction path generalizing c c' with
  | nil =>
    cases h
    exact ⟨rfl, fun before i after hpath => by simp at hpath⟩
  | cons i path ih =>
    by_cases hpath : path = []
    · subst hpath
      have hset : Replaced c i v c' := replaced_of_indexSet h
      refine ⟨follow_of_index hset.found [], fun before k after hsplit j rest hj => ?_⟩
      obtain ⟨rfl, rfl, rfl⟩ : before = [] ∧ k = i ∧ after = [] := by
        cases before <;> simp_all
      exact hset.follow_elsewhere hj rest
    · rw [replace_cons hpath] at h
      obtain ⟨inner, hinner, h⟩ := bind_eq_ok h
      obtain ⟨changed, hchanged, h⟩ := bind_eq_ok h
      have hset : Replaced c i changed c' := replaced_of_indexSet h
      obtain ⟨hfound, helsewhere⟩ := ih hchanged
      refine ⟨(follow_of_index hset.found path).trans hfound, fun before k after hsplit j rest hj => ?_⟩
      -- What lies off the path parts from it here, or further in.
      cases before with
      | nil =>
        obtain ⟨rfl, -⟩ := List.cons.inj hsplit
        exact hset.follow_elsewhere hj rest
      | cons first before =>
        obtain ⟨rfl, hafter⟩ := List.cons.inj hsplit
        rw [List.cons_append, follow_of_index hset.found, follow_of_index hinner]
        exact helsewhere before k after hafter j rest hj

end Lineage.Value
