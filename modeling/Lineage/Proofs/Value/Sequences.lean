/-
  Lineage.Proofs.Value.Sequences

  Lists and texts as sequences with positions from one.

  A `Sequence` is a list, or a text as the characters in it.  The operations on containers are
  described by the elements at each position (`Sequence.nth`): what they take, what they put
  where, and when they refuse.  `sequence_algebra` has all of it.

  Values work on numbers without bounds where a program has words of 64 bits.  The last section
  does the same work in words, where a step may overflow, and shows that none does for a
  sequence that is shorter than 2⁶³, as every one is that fits a memory.
-/
import Mathlib.Algebra.Group.Int.Defs
import Mathlib.Algebra.Group.Nat.Defs
import Lineage.Proofs.Text.Occurrence
import Lineage.Proofs.Value.Paths
import Lineage.Value.Arithmetic

namespace Lineage

namespace Value

/-- A failure with a code, whatever the message. -/
def FailsWith {α : Type} (code : ErrorCode) (x : Except ScriptError α) : Prop :=
  ∃ e, x = .error e ∧ e.code = code

theorem not_ok_of_failsWith {α : Type} {code : ErrorCode} {x : Except ScriptError α} {a : α}
    (h : FailsWith code x) : x ≠ .ok a := by
  obtain ⟨e, rfl, -⟩ := h
  intro heq
  cases heq

theorem place_within {i : Int64} {n : Nat} (h : 1 ≤ i.toInt ∧ i.toInt ≤ n) :
    ∃ k, place i n = .ok k ∧ i.toInt = k + 1 ∧ k < n := by
  have hplace : place i n = .ok (i.toInt.toNat - 1) := if_pos h
  exact ⟨_, hplace, place_eq_ok_iff.mp hplace⟩

theorem place_outside {i : Int64} {n : Nat} (h : ¬ (1 ≤ i.toInt ∧ i.toInt ≤ n)) :
    FailsWith .range (place i n) :=
  ⟨_, if_neg h, rfl⟩

theorem FailsWith.bind {α β : Type} {code : ErrorCode} {x : Except ScriptError α}
    (h : FailsWith code x) (f : α → Except ScriptError β) : FailsWith code (x >>= f) := by
  obtain ⟨e, rfl, hcode⟩ := h
  exact ⟨e, rfl, hcode⟩

theorem elementAt_map {α β : Type} (f : α → β) (items : List α) (i : Int64) :
    elementAt (items.map f) i = (elementAt items i).map f := by
  rw [elementAt, elementAt, List.length_map]
  cases place i items.length with
  | error e => rfl
  | ok k =>
    show itemAt (items.map f) k = (itemAt items k).map f
    rw [itemAt, itemAt, List.getElem?_map]
    cases items[k]? <;> rfl

end Value

/-- A value with positions. -/
inductive Sequence where
  | list (items : List Value)
  | text (s : String)

namespace Sequence

open Value Text

/-- A character as a text of its own. -/
def letter (c : Char) : Value :=
  .str (String.ofList [c])

def value : Sequence → Value
  | list items => .list items
  | text s => .str s

def elements : Sequence → List Value
  | list items => items
  | text s => s.toList.map letter

def size (s : Sequence) : Nat :=
  s.elements.length

/-- The element at a position. -/
def nth (s : Sequence) (p : Int) : Option Value :=
  if 1 ≤ p then s.elements[p.toNat - 1]? else none

/-- The sequence of the same kind without elements. -/
def empty : Sequence → Sequence
  | list _ => list []
  | text _ => text ""

/-- Some elements in a row. -/
def slice : Sequence → Nat → Nat → Sequence
  | list items, start, size => list ((items.drop start).take size)
  | text s, start, size => text (String.ofList ((s.toList.drop start).take size))

/-- What can stand in a sequence: in a text, one character. -/
def Fits (x : Value) : Sequence → Prop
  | list _ => True
  | text _ => ∃ c, x = letter c

/-- What can be searched for: in a text, a text. -/
def Sought (needle : Value) : Sequence → Prop
  | list _ => True
  | text _ => ∃ r, needle = .str r

/-- A value occurs at a position: in a list, as an equal element; in a text, as the characters from
there on start with it. -/
def Occurs (needle : Value) (s : Sequence) (p : Int) : Prop :=
  1 ≤ p ∧ match s with
    | list _ => ∃ x, s.nth p = some x ∧ x.equals needle = true
    | text t => ∃ r, needle = .str r ∧ r.toList <+: t.toList.drop (p.toNat - 1)

variable {s t : Sequence} {i : Int64} {x needle : Value} {k : Nat}

theorem value_length : s.value.length = .ok s.size := by
  cases s with
  | list items => rfl
  | text s => exact congrArg Except.ok (List.length_map _).symm

theorem nth_succ : s.nth (k + 1) = s.elements[k]? := by
  rw [nth, if_pos (by omega)]
  congr 1

theorem nth_of_not_pos {p : Int} (h : ¬ 1 ≤ p) : s.nth p = none := if_neg h

/-! ## Elements -/

/-- The positions within a sequence have elements, and others are out of range. -/
def Indexed (s : Sequence) : Prop :=
  ∀ i : Int64,
    (1 ≤ i.toInt ∧ i.toInt ≤ s.size → ∃ x, s.nth i.toInt = some x ∧ s.value.index (.int i) = .ok x) ∧
    (¬ (1 ≤ i.toInt ∧ i.toInt ≤ s.size) → FailsWith .range (s.value.index (.int i)))

theorem index_eq (s : Sequence) (i : Int64) : s.value.index (.int i) = elementAt s.elements i := by
  cases s with
  | list items => rfl
  | text s => exact (index_str s i).trans (elementAt_map letter s.toList i).symm

theorem indexed (s : Sequence) : s.Indexed := by
  intro i
  constructor
  · intro h
    obtain ⟨k, hplace, hi, hk⟩ := place_within h
    refine ⟨s.elements[k], ?_, ?_⟩
    · rw [hi, nth_succ]
      exact List.getElem?_eq_getElem hk
    · rw [index_eq, elementAt, ← size, hplace]
      show itemAt s.elements k = _
      rw [itemAt, List.getElem?_eq_getElem hk]
  · intro h
    rw [index_eq]
    exact (place_outside h).bind _

/-- Setting an element changes that one and no other. -/
def Written (s : Sequence) : Prop :=
  ∀ (i : Int64) (x : Value),
    ((∃ w, s.value.indexSet (.int i) x = .ok w) ↔ (1 ≤ i.toInt ∧ i.toInt ≤ s.size) ∧ s.Fits x) ∧
    ∀ w, s.value.indexSet (.int i) x = .ok w →
      ∃ t : Sequence, w = t.value ∧ t.value.kind = s.value.kind ∧ t.size = s.size ∧
        t.nth i.toInt = some x ∧ ∀ p, p ≠ i.toInt → t.nth p = s.nth p

/-- An element has been set. -/
theorem nth_of_set (ht : t.elements = s.elements.set k x) (hk : k < s.size) :
    t.size = s.size ∧ t.nth (k + 1) = some x ∧ ∀ p : Int, p ≠ k + 1 → t.nth p = s.nth p := by
  refine ⟨?_, ?_, fun p hp => ?_⟩
  · rw [size, ht, List.length_set, size]
  · rw [nth_succ, ht, List.getElem?_set_self hk]
  · by_cases hpos : 1 ≤ p
    · obtain ⟨l, rfl⟩ : ∃ l : Nat, p = l + 1 := ⟨p.toNat - 1, by omega⟩
      have hne : k ≠ l := by omega
      rw [nth_succ, nth_succ, ht, List.getElem?_set_ne hne]
    · rw [nth_of_not_pos hpos, nth_of_not_pos hpos]

theorem set_of_indexSet {w : Value} (h : s.value.indexSet (.int i) x = .ok w) :
    s.Fits x ∧ ∃ (k : Nat) (t : Sequence), place i s.size = .ok k ∧ w = t.value ∧ t.value.kind = s.value.kind ∧
      t.elements = s.elements.set k x := by
  cases s with
  | list items =>
    cases replaced_of_indexSet h with
    | @element _ _ k _ hk => exact ⟨trivial, k, list (items.set k x), hk, rfl, rfl, rfl⟩
  | text s =>
    cases replaced_of_indexSet h with
    | @character _ _ k c hk =>
      refine ⟨⟨c, rfl⟩, k, text (String.ofList (s.toList.set k c)), ?_, rfl, rfl, ?_⟩
      · rw [size, elements, List.length_map]
        exact hk
      · rw [elements, String.toList_ofList, List.map_set]
        rfl

theorem indexSet_of_fits (h : 1 ≤ i.toInt ∧ i.toInt ≤ s.size) (hx : s.Fits x) :
    ∃ w, s.value.indexSet (.int i) x = .ok w := by
  obtain ⟨k, hplace, -⟩ := place_within h
  cases s with
  | list items =>
    refine ⟨.list (items.set k x), ?_⟩
    have hplace : place i items.length = .ok k := hplace
    simp only [value, indexSet, hplace]
    rfl
  | text s =>
    obtain ⟨c, rfl⟩ := hx
    rw [size, elements, List.length_map] at hplace
    refine ⟨.str (String.ofList (s.toList.set k c)), ?_⟩
    simp only [value, letter, indexSet, hplace, String.toList_ofList]
    rfl

theorem written (s : Sequence) : s.Written := by
  intro i x
  refine ⟨⟨?_, fun h => indexSet_of_fits h.1 h.2⟩, fun w hw => ?_⟩
  · rintro ⟨w, hw⟩
    obtain ⟨hfits, k, -, hplace, -⟩ := set_of_indexSet hw
    obtain ⟨hi, hk⟩ := place_eq_ok_iff.mp hplace
    exact ⟨by omega, hfits⟩
  · obtain ⟨-, k, t, hplace, hvalue, hkind, hset⟩ := set_of_indexSet hw
    obtain ⟨hi, hk⟩ := place_eq_ok_iff.mp hplace
    rw [hi]
    exact ⟨t, hvalue, hkind, nth_of_set hset hk⟩

/-! ## Elements in a row -/

/-- The elements between two positions, both included, are a sequence of the same kind. -/
def Ranged (s : Sequence) : Prop :=
  ∀ a b : Int64,
    (s.value.range (.int a) (.int b) = .ok s.empty.value ↔ b.toInt < a.toInt) ∧
    (a.toInt ≤ b.toInt → 1 ≤ a.toInt ∧ b.toInt ≤ s.size →
      ∃ t : Sequence, s.value.range (.int a) (.int b) = .ok t.value ∧ t.value.kind = s.value.kind ∧
        (t.size : Int) = b.toInt - a.toInt + 1 ∧
        ∀ k : Int, 1 ≤ k → k ≤ t.size → t.nth k = s.nth (a.toInt + k - 1)) ∧
    (a.toInt ≤ b.toInt → ¬ (1 ≤ a.toInt ∧ b.toInt ≤ s.size) →
      FailsWith .range (s.value.range (.int a) (.int b)))

/-- The elements up to a position and those after it make up the sequence. -/
def Parted (s : Sequence) : Prop :=
  ∀ k l n : Int64, 0 ≤ k.toInt → k.toInt ≤ s.size → l.toInt = k.toInt + 1 → n.toInt = s.size →
    (do
      let front ← s.value.range (.int 1) (.int k)
      let back ← s.value.range (.int l) (.int n)
      front.add back) = .ok s.value

theorem range_eq (s : Sequence) (a b : Int64) : s.value.range (.int a) (.int b) =
    if b.toInt < a.toInt then .ok s.empty.value
    else if a.toInt < 1 ∨ s.size < b.toInt then .error ErrorCode.range
    else .ok (s.slice (a.toInt.toNat - 1) (b.toInt - a.toInt + 1).toNat).value := by
  simp only [range, int?, value_length, bind, Except.bind]
  cases s <;> rfl

theorem elements_slice (s : Sequence) (start size : Nat) :
    (s.slice start size).elements = (s.elements.drop start).take size := by
  cases s with
  | list items => rfl
  | text s => rw [slice, elements, elements, String.toList_ofList, List.map_take, List.map_drop]

theorem slice_zero (s : Sequence) (start : Nat) : s.slice start 0 = s.empty := by
  cases s with
  | list items => exact congrArg list List.take_zero
  | text s => rw [slice, List.take_zero]; rfl

theorem kind_slice (s : Sequence) (start size : Nat) :
    (s.slice start size).value.kind = s.value.kind := by
  cases s <;> rfl

theorem value_inj (h : s.value = t.value) : s = t := by
  cases s <;> cases t <;> cases h <;> rfl

theorem size_empty (s : Sequence) : s.empty.size = 0 := by
  cases s <;> rfl

/-- The positions of a slice that may be empty. -/
theorem range_within {a b : Int64} (ha : 1 ≤ a.toInt) (hab : a.toInt ≤ b.toInt + 1)
    (hb : b.toInt ≤ s.size) : s.value.range (.int a) (.int b) =
      .ok (s.slice (a.toInt.toNat - 1) (b.toInt - a.toInt + 1).toNat).value := by
  rw [range_eq]
  by_cases hlt : b.toInt < a.toInt
  · rw [if_pos hlt, show (b.toInt - a.toInt + 1).toNat = 0 by omega, slice_zero]
  · rw [if_neg hlt, if_neg (by omega)]

theorem size_slice {start size : Nat} (h : start + size ≤ s.size) :
    (s.slice start size).size = size := by
  rw [Sequence.size] at h
  rw [Sequence.size, elements_slice, List.length_take, List.length_drop]
  omega

theorem nth_slice {start size : Nat} (hk : k < size) :
    (s.slice start size).nth (k + 1) = s.nth (start + k + 1) := by
  have hplace : (start + k + 1 : Int) = (start + k : Nat) + 1 := by omega
  rw [hplace, nth_succ, nth_succ, elements_slice, List.getElem?_take_of_lt hk, List.getElem?_drop]

theorem ranged (s : Sequence) : s.Ranged := by
  intro a b
  have houtside (hab : a.toInt ≤ b.toInt) (h : ¬ (1 ≤ a.toInt ∧ b.toInt ≤ s.size)) :
      FailsWith .range (s.value.range (.int a) (.int b)) := by
    rw [range_eq, if_neg (by omega), if_pos (by omega)]
    exact ⟨_, rfl, rfl⟩
  refine ⟨⟨fun h => ?_, fun h => ?_⟩, fun hab h => ?_, houtside⟩
  · -- Within the sequence there is at least one element, so the range is not empty.
    by_contra hab
    rw [Int.not_lt] at hab
    by_cases hin : 1 ≤ a.toInt ∧ b.toInt ≤ s.size
    · rw [range_within hin.1 (by omega) hin.2] at h
      have hsize := congrArg size (value_inj (Except.ok.inj h))
      rw [size_slice (by omega), size_empty] at hsize
      omega
    · exact not_ok_of_failsWith (houtside hab hin) h
  · rw [range_eq, if_pos h]
  · refine ⟨_, range_within h.1 (by omega) h.2, kind_slice _ _ _, ?_, fun k hk hkt => ?_⟩
    · rw [size_slice (by omega)]
      omega
    · rw [size_slice (by omega)] at hkt
      obtain ⟨j, rfl⟩ : ∃ j : Nat, k = j + 1 := ⟨k.toNat - 1, by omega⟩
      rw [nth_slice (by omega)]
      congr 1
      omega

theorem add_slices (s : Sequence) {k : Nat} (hk : k ≤ s.size) :
    (s.slice 0 k).value.add (s.slice k (s.size - k)).value = .ok s.value := by
  cases s with
  | list items =>
    have hrest : (items.drop k).take (items.length - k) = items.drop k :=
      List.take_of_length_le (Nat.le_of_eq List.length_drop)
    show Except.ok (Value.list (items.take k ++ (items.drop k).take (items.length - k))) = _
    rw [hrest, List.take_append_drop]
    rfl
  | text s =>
    have hsize : (text s).size = s.toList.length := List.length_map _
    have hrest : (s.toList.drop k).take (s.toList.length - k) = s.toList.drop k :=
      List.take_of_length_le (Nat.le_of_eq List.length_drop)
    rw [hsize]
    show Except.ok (Value.str (String.ofList (s.toList.take k) ++
      String.ofList ((s.toList.drop k).take (s.toList.length - k)))) = _
    rw [hrest, ← String.ofList_append, List.take_append_drop, String.ofList_toList]
    rfl

theorem parted (s : Sequence) : s.Parted := by
  intro k l n hk hks hl hn
  have hone : (1 : Int64).toInt = 1 := rfl
  have hfront := range_within (s := s) (a := 1) (b := k) (by omega) (by omega) hks
  have hback := range_within (s := s) (a := l) (b := n) (by omega) (by omega) (by omega)
  have hstart : l.toInt.toNat - 1 = k.toInt.toNat := by omega
  have hrest : (n.toInt - l.toInt + 1).toNat = s.size - k.toInt.toNat := by omega
  have hsize : (k.toInt - (1 : Int64).toInt + 1).toNat = k.toInt.toNat := by omega
  rw [hfront, hback, hstart, hrest, hsize, hone]
  exact s.add_slices (by omega)

/-! ## One element more or less -/

/-- One more element at the end of a list. -/
def Grown (items : List Value) : Prop :=
  ∀ x, ∃ grown : List Value, (Value.list items).push x = .ok (.list grown) ∧
    grown.length = items.length + 1 ∧ (list grown).nth (items.length + 1) = some x ∧
    ∀ p : Int, p ≤ items.length → (list grown).nth p = (list items).nth p

/-- A list without the element at a position, the later ones one position earlier. -/
def Shrunk (items : List Value) : Prop :=
  ∀ i : Int64,
    (1 ≤ i.toInt ∧ i.toInt ≤ items.length → ∃ shrunk : List Value,
      (Value.list items).removeAt (.int i) = .ok (.list shrunk) ∧ shrunk.length + 1 = items.length ∧
      (∀ p < i.toInt, (list shrunk).nth p = (list items).nth p) ∧
      ∀ p, i.toInt ≤ p → (list shrunk).nth p = (list items).nth (p + 1)) ∧
    (¬ (1 ≤ i.toInt ∧ i.toInt ≤ items.length) →
      FailsWith .range ((Value.list items).removeAt (.int i)))

theorem grown (items : List Value) : Grown items := by
  intro x
  refine ⟨items ++ [x], rfl, List.length_append, ?_, fun p hp => ?_⟩
  · rw [nth_succ]
    exact List.getElem?_concat_length
  · by_cases hpos : 1 ≤ p
    · obtain ⟨k, rfl⟩ : ∃ k : Nat, p = k + 1 := ⟨p.toNat - 1, by omega⟩
      rw [nth_succ, nth_succ]
      exact List.getElem?_append_left (by omega)
    · rw [nth_of_not_pos hpos, nth_of_not_pos hpos]

theorem shrunk (items : List Value) : Shrunk items := by
  intro i
  refine ⟨fun h => ?_, fun h => (place_outside h).bind _⟩
  obtain ⟨k, hplace, hi, hk⟩ := place_within h
  refine ⟨items.eraseIdx k, ?_, ?_, fun p hp => ?_, fun p hp => ?_⟩
  · simp only [removeAt, hplace]
    rfl
  · rw [List.length_eraseIdx_of_lt hk]
    omega
  · by_cases hpos : 1 ≤ p
    · obtain ⟨l, rfl⟩ : ∃ l : Nat, p = l + 1 := ⟨p.toNat - 1, by omega⟩
      rw [nth_succ, nth_succ]
      exact List.getElem?_eraseIdx_of_lt (by omega)
    · rw [nth_of_not_pos hpos, nth_of_not_pos hpos]
  · obtain ⟨l, rfl⟩ : ∃ l : Nat, p = l + 1 := ⟨p.toNat - 1, by omega⟩
    have hnext : (l + 1 + 1 : Int) = (l + 1 : Nat) + 1 := by omega
    rw [hnext, nth_succ, nth_succ]
    exact List.getElem?_eraseIdx_of_ge (by omega)

/-! ## Searching -/

/-- What is found is the least position at which a value occurs, and zero if there is none. -/
def Found (s : Sequence) : Prop :=
  s.size < 2 ^ 63 → ∀ needle, s.Sought needle → ∃ p : Int64,
    needle.indexIn s.value = .ok (.int p) ∧
      ((p.toInt = 0 ∧ ∀ q, ¬ s.Occurs needle q) ∨
        (s.Occurs needle p.toInt ∧ ∀ q < p.toInt, ¬ s.Occurs needle q))

/-- The least number with a property, if there is one. -/
def Least (P : Nat → Prop) : Option Nat → Prop
  | some k => P k ∧ ∀ j < k, ¬ P j
  | none => ∀ k, ¬ P k

theorem toInt_ofNat_succ {k : Nat} (hk : k < 2 ^ 63 - 1) : (Int64.ofNat (k + 1)).toInt = k + 1 := by
  rw [Int64.toInt_ofNat_of_lt (by omega)]
  rfl

/-- The position of the least place is the least position. -/
theorem position_of_least {P : Nat → Prop} {place : Option Nat} (hplace : Least P place)
    (hlt : ∀ k ∈ place, k < 2 ^ 63 - 1)
    (hoccurs : ∀ q, s.Occurs needle q ↔ ∃ k : Nat, q = k + 1 ∧ P k) : ∃ p : Int64,
      position place = .int p ∧
        ((p.toInt = 0 ∧ ∀ q, ¬ s.Occurs needle q) ∨
          (s.Occurs needle p.toInt ∧ ∀ q < p.toInt, ¬ s.Occurs needle q)) := by
  cases place with
  | none =>
    refine ⟨0, rfl, .inl ⟨rfl, fun q hq => ?_⟩⟩
    obtain ⟨k, -, hk⟩ := (hoccurs q).mp hq
    exact hplace k hk
  | some k =>
    obtain ⟨hhere, hleast⟩ := hplace
    refine ⟨Int64.ofNat (k + 1), rfl, .inr ?_⟩
    rw [toInt_ofNat_succ (hlt k rfl)]
    refine ⟨(hoccurs _).mpr ⟨k, rfl, hhere⟩, fun q hq hq' => ?_⟩
    obtain ⟨j, rfl, hj⟩ := (hoccurs q).mp hq'
    exact hleast j (by omega) hj

theorem occurs_list {items : List Value} {q : Int} : (list items).Occurs needle q ↔
    ∃ k : Nat, q = k + 1 ∧ ∃ x, items[k]? = some x ∧ x.equals needle = true := by
  constructor
  · rintro ⟨hpos, x, hx, heq⟩
    obtain ⟨k, rfl⟩ : ∃ k : Nat, q = k + 1 := ⟨q.toNat - 1, by omega⟩
    rw [nth_succ] at hx
    exact ⟨k, rfl, x, hx, heq⟩
  · rintro ⟨k, rfl, x, hx, heq⟩
    exact ⟨by omega, x, nth_succ.trans hx, heq⟩

theorem occurs_text {r t : String} {q : Int} : (text t).Occurs (.str r) q ↔
    ∃ k : Nat, q = k + 1 ∧ r.toList <+: t.toList.drop k := by
  constructor
  · rintro ⟨hpos, r', heq, hprefix⟩
    cases heq
    exact ⟨q.toNat - 1, by omega, hprefix⟩
  · rintro ⟨k, rfl, hprefix⟩
    refine ⟨by omega, r, rfl, ?_⟩
    rw [show (k + 1 : Int).toNat - 1 = k by omega]
    exact hprefix

theorem least_findIdx (items : List Value) (needle : Value) :
    Least (fun k => ∃ x, items[k]? = some x ∧ x.equals needle = true)
      (items.findIdx? fun item => item.equals needle) := by
  cases hfound : items.findIdx? fun item => item.equals needle with
  | none =>
    rintro k ⟨x, hx, heq⟩
    rw [List.findIdx?_eq_none_iff] at hfound
    exact Bool.false_ne_true ((hfound x (List.mem_of_getElem? hx)).symm.trans heq)
  | some k =>
    obtain ⟨hk, heq, hbefore⟩ := List.findIdx?_eq_some_iff_getElem.mp hfound
    refine ⟨⟨items[k], List.getElem?_eq_getElem hk, heq⟩, fun j hj => ?_⟩
    rintro ⟨x, hx, hxeq⟩
    have hlt : j < items.length := Nat.lt_trans hj hk
    rw [List.getElem?_eq_getElem hlt, Option.some.injEq] at hx
    exact hbefore j hj (hx ▸ hxeq)

theorem least_occurrence (needle hay : List Char) :
    Least (fun k => needle <+: hay.drop k) (occurrence needle hay) := by
  cases hfound : occurrence needle hay with
  | none => exact occurrence_eq_none_iff.mp hfound
  | some k =>
    have hfirst := occurrence_eq_some_iff.mp hfound
    exact ⟨hfirst.here, hfirst.least⟩

/-- The place that a search finds. -/
def search (needle : Value) : Sequence → Option Nat
  | list items => items.findIdx? fun item => item.equals needle
  | text t =>
    match needle with
    | .str r => occurrence r.toList t.toList
    | _ => none

theorem indexIn_eq (hneedle : s.Sought needle) :
    needle.indexIn s.value = .ok (position (s.search needle)) := by
  cases s with
  | list items => cases needle <;> rfl
  | text t =>
    obtain ⟨r, rfl⟩ := hneedle
    rfl

/-- A place that is found can be followed by a position in 64 bits. -/
theorem search_lt (h : s.search needle = some k) (hsize : s.size < 2 ^ 63) : k < 2 ^ 63 - 1 := by
  cases s with
  | list items =>
    obtain ⟨hlt, -⟩ := List.findIdx?_eq_some_iff_getElem.mp h
    have hlength : items.length < 2 ^ 63 := hsize
    omega
  | text t =>
    rw [size, elements, List.length_map] at hsize
    match needle, h with
    | .str r, h =>
      have hfirst := occurrence_eq_some_iff.mp h
      by_cases hneedle : r.toList = []
      · rw [hneedle] at hfirst
        obtain rfl := hfirst.unique (first_zero_iff.mpr List.nil_prefix)
        decide
      · have hlt := hfirst.lt_length hneedle
        omega

theorem found (s : Sequence) : s.Found := by
  intro hsize needle hneedle
  have hlt (k : Nat) (hk : k ∈ s.search needle) : k < 2 ^ 63 - 1 := search_lt hk hsize
  rw [indexIn_eq hneedle]
  cases s with
  | list items =>
    obtain ⟨p, hp, hleast⟩ := position_of_least (least_findIdx items needle) hlt fun q => occurs_list
    exact ⟨p, congrArg Except.ok hp, hleast⟩
  | text t =>
    obtain ⟨r, rfl⟩ := hneedle
    obtain ⟨p, hp, hleast⟩ :=
      position_of_least (least_occurrence r.toList t.toList) hlt fun q => occurs_text
    exact ⟨p, congrArg Except.ok hp, hleast⟩

/-- The bytes of a text. -/
def bytes (s : String) : List UInt8 :=
  s.toUTF8.data.toList

/-- Whether bytes or characters are searched makes no difference: where the bytes of a text first
occur in those of another a character starts, and the position found is the one after all
characters before it. -/
def FoundInBytes (r t : String) : Prop :=
  (∃ offset front back, First (bytes r) (bytes t) offset ∧ t = front ++ back ∧
      (bytes front).length = offset ∧
      (Value.str r).indexIn (.str t) = .ok (ofNat (front.toList.length + 1))) ∨
    ((∀ offset, ¬ bytes r <+: (bytes t).drop offset) ∧
      (Value.str r).indexIn (.str t) = .ok (ofNat 0))

theorem foundInBytes (r t : String) : FoundInBytes r t := by
  have hbytes (s : String) : bytes s = utf8 s.toList := utf8_toList s
  cases hfound : occurrence r.toList t.toList with
  | some k =>
    have hfirst := occurrence_eq_some_iff.mp hfound
    refine .inl ⟨_, String.ofList (t.toList.take k), String.ofList (t.toList.drop k), ?_, ?_, rfl, ?_⟩
    · rw [hbytes, hbytes, hbytes, String.toList_ofList]
      exact first_utf8_iff.mpr ⟨k, hfirst, rfl⟩
    · rw [← String.ofList_append, List.take_append_drop, String.ofList_toList]
    · rw [indexIn, hfound, String.toList_ofList, List.length_take, Nat.min_eq_left hfirst.le_length]
      rfl
  | none =>
    refine .inr ⟨fun offset hthere => ?_, ?_⟩
    · rw [occurrence_eq_none_iff] at hfound
      rw [hbytes, hbytes] at hthere
      by_cases hneedle : r.toList = []
      · exact hfound 0 (hneedle ▸ List.nil_prefix)
      · obtain ⟨k, -, -, hk⟩ := boundary_of_prefix hneedle hthere
        exact hfound k hk
    · rw [indexIn, hfound]
      rfl

/-! ## In words of 64 bits -/

/-- A number as a signed word, if it is one. -/
def word? (n : Int) : Option Int64 :=
  if -2 ^ 63 ≤ n ∧ n < 2 ^ 63 then some (Int64.ofInt n) else none

/-- A number as an unsigned word, if it is one. -/
def size? (n : Int) : Option UInt64 :=
  if 0 ≤ n ∧ n < 2 ^ 64 then some (UInt64.ofNat n.toNat) else none

/-- The place of a position among so many elements, if it has one.  Nothing at all when a step
overflows. -/
def placeInWords (position : Int64) (length : UInt64) : Option (Option UInt64) := do
  if position < 1 then return none
  if length < (← size? position.toInt) then return none
  let place ← word? (position.toInt - 1)
  return some (← size? place.toInt)

/-- Where the elements between two positions start, and how many there are, if they are among so
many elements.  Nothing at all when a step overflows. -/
def sliceInWords (first last : Int64) (length : UInt64) : Option (Option (UInt64 × UInt64)) := do
  let length ← word? length.toNat
  if first < 1 ∨ length < last then return none
  let before ← word? (first.toInt - 1)
  let start ← size? before.toInt
  let stop ← size? last.toInt
  return some (start, ← size? (stop.toNat - start.toNat))

/-- The position of a place.  Nothing when a step overflows. -/
def positionInWords (place : UInt64) : Option Int64 := do
  let place ← word? place.toNat
  word? (place.toInt + 1)

/-- The positions of a sequence worked out in words: no step overflows, and the operations do what
the words say. -/
def Exact (s : Sequence) : Prop :=
  s.size < 2 ^ 63 →
    (∀ i : Int64, ∃ k, placeInWords i (UInt64.ofNat s.size) = some k ∧
      (place i s.size).toOption = k.map UInt64.toNat) ∧
    (∀ a b : Int64, a.toInt ≤ b.toInt → ∃ r, sliceInWords a b (UInt64.ofNat s.size) = some r ∧
      s.value.range (.int a) (.int b) = match r with
        | none => .error ErrorCode.range
        | some (start, size) => .ok (s.slice start.toNat size.toNat).value) ∧
    (∀ needle k, s.search needle = some k → ∃ p : Int64,
      positionInWords (UInt64.ofNat k) = some p ∧ position (s.search needle) = .int p)

theorem word?_eq {n : Int} (h : -2 ^ 63 ≤ n ∧ n < 2 ^ 63) : ∃ w, word? n = some w ∧ w.toInt = n :=
  ⟨_, if_pos h, Int64.toInt_ofInt_of_le h.1 h.2⟩

theorem size?_eq {n : Int} (h : 0 ≤ n ∧ n < 2 ^ 64) : ∃ u, size? n = some u ∧ (u.toNat : Int) = n := by
  refine ⟨_, if_pos h, ?_⟩
  rw [UInt64.toNat_ofNat_of_lt' (by rw [UInt64.size]; omega)]
  omega

theorem placeInWords_eq (i : Int64) {n : Nat} (hn : n < 2 ^ 63) :
    ∃ k, placeInWords i (UInt64.ofNat n) = some k ∧ (place i n).toOption = k.map UInt64.toNat := by
  have hupper := i.toInt_lt
  have hlength : (UInt64.ofNat n).toNat = n := UInt64.toNat_ofNat_of_lt' (by rw [UInt64.size]; omega)
  have hlow_iff : i < 1 ↔ i.toInt < 1 := Int64.lt_iff_toInt_lt
  rw [placeInWords]
  by_cases hlow : i < 1
  · have hlow' := hlow_iff.mp hlow
    refine ⟨none, if_pos hlow, ?_⟩
    rw [place, if_neg (by omega)]
    rfl
  have hlow' := mt hlow_iff.mpr hlow
  rw [if_neg hlow]
  obtain ⟨u, hu, hui⟩ := size?_eq (n := i.toInt) (by omega)
  have hhigh_iff : UInt64.ofNat n < u ↔ n < u.toNat := by rw [UInt64.lt_iff_toNat_lt, hlength]
  rw [hu, Option.bind_eq_bind, Option.bind_some]
  by_cases hhigh : UInt64.ofNat n < u
  · have hhigh' := hhigh_iff.mp hhigh
    refine ⟨none, if_pos hhigh, ?_⟩
    rw [place, if_neg (by omega)]
    rfl
  have hhigh' := mt hhigh_iff.mpr hhigh
  rw [if_neg hhigh]
  obtain ⟨w, hw, hwi⟩ := word?_eq (n := i.toInt - 1) (by omega)
  obtain ⟨k, hk, hki⟩ := size?_eq (n := w.toInt) (by omega)
  rw [hw, Option.bind_eq_bind, Option.bind_some, hk]
  refine ⟨_, rfl, ?_⟩
  rw [place, if_pos (by omega)]
  exact congrArg some (by omega)

theorem sliceInWords_eq {a b : Int64} (hab : a.toInt ≤ b.toInt) {n : Nat} (hn : n < 2 ^ 63) :
    ∃ r, sliceInWords a b (UInt64.ofNat n) = some r ∧
      r.map (fun (start, size) => (start.toNat, size.toNat)) =
        if a.toInt < 1 ∨ n < b.toInt then none
        else some (a.toInt.toNat - 1, (b.toInt - a.toInt + 1).toNat) := by
  have hlower := a.le_toInt
  have hupper := b.toInt_lt
  have hlength : (UInt64.ofNat n).toNat = n := UInt64.toNat_ofNat_of_lt' (by rw [UInt64.size]; omega)
  obtain ⟨l, hl, hln⟩ := word?_eq (n := n) (by omega)
  have hout_iff : a < 1 ∨ l < b ↔ a.toInt < 1 ∨ n < b.toInt := by
    rw [Int64.lt_iff_toInt_lt, Int64.lt_iff_toInt_lt, hln]
    rfl
  rw [sliceInWords, hlength, hl, Option.bind_eq_bind, Option.bind_some]
  by_cases hout : a < 1 ∨ l < b
  · refine ⟨none, if_pos hout, ?_⟩
    rw [if_pos (hout_iff.mp hout)]
    rfl
  have hout' := mt hout_iff.mpr hout
  rw [if_neg hout, if_neg hout']
  obtain ⟨w, hw, hwa⟩ := word?_eq (n := a.toInt - 1) (by omega)
  obtain ⟨start, hstart, hstarta⟩ := size?_eq (n := w.toInt) (by omega)
  obtain ⟨stop, hstop, hstopb⟩ := size?_eq (n := b.toInt) (by omega)
  obtain ⟨size, hsize, hsizeab⟩ := size?_eq (n := stop.toNat - start.toNat) (by omega)
  simp only [hw, hstart, hstop, hsize, Option.bind_eq_bind, Option.bind_some]
  refine ⟨_, rfl, congrArg some (Prod.ext ?_ ?_)⟩ <;> simp only <;> omega

theorem positionInWords_eq {k : Nat} (hk : k < 2 ^ 63 - 1) :
    positionInWords (UInt64.ofNat k) = some (Int64.ofNat (k + 1)) := by
  have hplace : (UInt64.ofNat k).toNat = k := UInt64.toNat_ofNat_of_lt' (by rw [UInt64.size]; omega)
  obtain ⟨w, hw, hwk⟩ := word?_eq (n := k) (by omega)
  obtain ⟨p, hp, hpk⟩ := word?_eq (n := w.toInt + 1) (by omega)
  rw [positionInWords, hplace, hw, Option.bind_eq_bind, Option.bind_some, hp, Option.some.injEq,
    ← Int64.toInt_inj, hpk, hwk, toInt_ofNat_succ hk]

theorem exact (s : Sequence) : s.Exact := by
  intro hsize
  refine ⟨fun i => placeInWords_eq i hsize, fun a b hab => ?_, fun needle k hk => ?_⟩
  · obtain ⟨r, hr, hvalues⟩ := sliceInWords_eq hab hsize
    refine ⟨r, hr, ?_⟩
    rw [range_eq, if_neg (by omega)]
    by_cases hout : a.toInt < 1 ∨ s.size < b.toInt
    · rw [if_pos hout] at hvalues ⊢
      rw [Option.map_eq_none_iff.mp hvalues]
    · rw [if_neg hout] at hvalues ⊢
      obtain ⟨⟨start, size⟩, rfl, heq⟩ := Option.map_eq_some_iff.mp hvalues
      obtain ⟨hstart, hcount⟩ := Prod.mk.inj heq
      rw [← hstart, ← hcount]
  · refine ⟨_, positionInWords_eq (search_lt hk hsize), ?_⟩
    rw [hk]
    rfl

/-- Lists, and texts as their characters, obey one algebra of positions from one. -/
theorem sequence_algebra :
    (∀ s : Sequence, s.Indexed ∧ s.Ranged ∧ s.Parted ∧ s.Written ∧ s.Found ∧ s.Exact) ∧
    (∀ items : List Value, Grown items ∧ Shrunk items) ∧
    (∀ r t : String, FoundInBytes r t) :=
  ⟨fun s => ⟨s.indexed, s.ranged, s.parted, s.written, s.found, s.exact⟩,
    fun items => ⟨grown items, shrunk items⟩, foundInBytes⟩

end Sequence

end Lineage
