/-
  Lineage.Script.Names

  The variables of a script.

  A variable is a slot; names that are equal in lower case share one.  The first six
  slots belong to the variables that every activation starts with.  Slots are 16 bits
  wide, so that the slot of a name past the 65536th is that of an earlier one.

  A table of names only grows at its end, so a name keeps its slot while a script is read
  (`find?_mono`).  As long as the table fits in 16 bits two names have one slot only if
  they are equal in lower case (`find?_inj`).
-/
import Lineage.Text.Case

namespace Lineage.Script

/-- The slot of a variable. -/
structure Name where
  slot : UInt16
  deriving DecidableEq

/-- The variables that are bound before a script starts. -/
inductive GlobalName where
  | this
  | player
  | caller
  | verb
  | args
  | argstr
  deriving DecidableEq

namespace GlobalName

/-- The names of the variables, in the order of their slots. -/
def texts : List String := ["this", "player", "caller", "verb", "args", "argstr"]

def slot : GlobalName → Nat
  | .this => 0
  | .player => 1
  | .caller => 2
  | .verb => 3
  | .args => 4
  | .argstr => 5

end GlobalName

/-- The names of a script's variables, in lower case, in the order of their slots. -/
structure Names where
  texts : Array String

namespace Names

/-- The table before a script is read. -/
def initial : Names := ⟨GlobalName.texts.toArray⟩

/-- The form under which a name is kept. -/
def fold (name : String) : String :=
  String.ofList (Text.lower name.toList)

/-- The slot of a name in the table. -/
def find? (ns : Names) (name : String) : Option Name :=
  let folded := fold name
  (ns.texts.findIdx? (· == folded)).map fun i => ⟨UInt16.ofNat i⟩

/-- The slot of a name, which is added to the table if it is new. -/
def intern (ns : Names) (name : String) : Name × Names :=
  match ns.find? name with
  | some n => (n, ns)
  | none => (⟨UInt16.ofNat ns.texts.size⟩, ⟨ns.texts.push (fold name)⟩)

/-- How many variables there are. -/
def width (ns : Names) : Nat := ns.texts.size

/-- The name of a slot. -/
def text? (ns : Names) (n : Name) : Option String := ns.texts[n.slot.toNat]?

/-- Whether a slot belongs to a variable that every activation starts with. -/
def isGlobal (n : Name) : Bool := n.slot.toNat < GlobalName.texts.length

/-- Interning a known name changes nothing. -/
theorem intern_of_find? {ns : Names} {name : String} {n : Name} (h : ns.find? name = some n) :
    ns.intern name = (n, ns) := by
  simp [intern, h]

/-! ## Tables that grow -/

/-- A table is the beginning of another. -/
def Precedes (ns ns' : Names) : Prop := ∃ more, ns'.texts = ns.texts ++ more

variable {ns ns₁ ns₂ : Names} {a b name : String} {n : Name}

theorem Precedes.refl (ns : Names) : ns.Precedes ns := ⟨#[], Array.append_empty.symm⟩

theorem Precedes.trans (h : ns.Precedes ns₁) (h' : ns₁.Precedes ns₂) : ns.Precedes ns₂ := by
  obtain ⟨more, hmore⟩ := h
  obtain ⟨more', hmore'⟩ := h'
  exact ⟨more ++ more', by rw [hmore', hmore, Array.append_assoc]⟩

/-- Where a name is found. -/
theorem find?_eq_some (h : ns.find? name = some n) :
    ∃ i, ∃ _ : i < ns.texts.size, n = ⟨UInt16.ofNat i⟩ ∧ ns.texts[i] = fold name := by
  simp only [find?, Option.map_eq_some_iff] at h
  obtain ⟨i, hi, rfl⟩ := h
  obtain ⟨hlt, htext, -⟩ := Array.findIdx?_eq_some_iff_getElem.mp hi
  exact ⟨i, hlt, rfl, eq_of_beq htext⟩

theorem find?_lt (h : ns.find? name = some n) (hwidth : ns.width ≤ UInt16.size) :
    n.slot.toNat < ns.width := by
  obtain ⟨i, hi, rfl, -⟩ := find?_eq_some h
  rw [UInt16.toNat_ofNat_of_lt' (Nat.lt_of_lt_of_le hi hwidth)]
  exact hi

/-- Names that share a slot are equal in lower case. -/
theorem find?_inj (hwidth : ns.width ≤ UInt16.size) (ha : ns.find? a = some n)
    (hb : ns.find? b = some n) : fold a = fold b := by
  obtain ⟨i, hi, rfl, hai⟩ := find?_eq_some ha
  obtain ⟨j, hj, hslot, hbj⟩ := find?_eq_some hb
  have hij : i = j := by
    have h := congrArg (fun n : Name => n.slot.toNat) hslot
    dsimp only at h
    rwa [UInt16.toNat_ofNat_of_lt' (Nat.lt_of_lt_of_le hi hwidth),
      UInt16.toNat_ofNat_of_lt' (Nat.lt_of_lt_of_le hj hwidth)] at h
  subst hij
  exact hai.symm.trans hbj

/-- A name keeps its slot when the table grows. -/
theorem find?_mono (hgrow : ns.Precedes ns₁) (h : ns.find? name = some n) :
    ns₁.find? name = some n := by
  obtain ⟨more, hmore⟩ := hgrow
  simp only [find?, Option.map_eq_some_iff] at h ⊢
  obtain ⟨i, hi, rfl⟩ := h
  refine ⟨i, ?_, rfl⟩
  rw [hmore, Array.findIdx?_append, hi, Option.some_or]

/-- A name that is interned has its slot in the table after it. -/
theorem intern_spec (ns : Names) (name : String) :
    ns.Precedes (ns.intern name).2 ∧ (ns.intern name).2.find? name = some (ns.intern name).1 := by
  unfold intern
  cases h : ns.find? name with
  | some n => exact ⟨.refl ns, h⟩
  | none =>
    refine ⟨⟨#[fold name], Array.push_eq_append⟩, ?_⟩
    have hnew : ns.texts.findIdx? (· == fold name) = none := Option.map_eq_none_iff.mp h
    simp only [find?, Array.findIdx?_push, hnew, beq_self_eq_true, if_true, Option.none_or,
      Option.map_some]

end Names

end Lineage.Script
