/-
  Lineage.Proofs.World.Sessions

  What holds of the memory of a session.

  A resident copy is a copy of the object that it is resident for, and what a method was
  compiled to is kept only as long as a resident copy owns the method and its source
  compiles to that (`Session.Valid`).  The lemmas here say under which conditions each
  single change to a session keeps this; a change to a copy may touch a method only if
  nothing is kept of it (`Valid.change`).
-/
import Lineage.Proofs.Dict
import Lineage.World.Methods

namespace Lineage

open World (keptProgram)

namespace Session

/-- A handle that names a copy. -/
def Given (s : Session) (h : Handle) : Prop := h.index < s.copies.size

/-- What is kept of a method is what its source compiles to. -/
structure Valid (s : Session) : Prop where
  residentOrder : s.resident.Ordered
  compiledOrder : s.compiled.Ordered
  programOrder : ∀ e ∈ s.compiled, Dict.Ordered e.2
  given : ∀ id h, s.resident.get? id = some h → s.Given h
  named : ∀ id h, s.resident.get? id = some h → (s.copyOf h).record.id = id
  coherent : ∀ definer name p, keptProgram s definer name = some p →
    ∃ h m, s.resident.get? definer = some h ∧ (s.copyOf h).record.methods.get? name = some m ∧
      Program.compile m.source s.runtime.customErrors = .ok p

variable {s : Session}

/-- A session in which nothing has been done. -/
theorem Valid.start (runtime : RuntimeSettings) : Valid { runtime } where
  residentOrder := .nil
  compiledOrder := .nil
  programOrder := by intro e he; cases he
  given := by intro id h hres; cases hres
  named := by intro id h hres; cases hres
  coherent := by intro definer name p hkept; cases hkept

/-- Waiting writes and counts do not matter. -/
theorem Valid.irrelevant (hs : s.Valid) (compilations : Nat) (queue : List Job) (writing : Bool) :
    Valid { s with compilations, queue, writing } :=
  ⟨hs.residentOrder, hs.compiledOrder, hs.programOrder, hs.given, hs.named, hs.coherent⟩

/-- What is kept compiled is what a method of a resident copy compiles to. -/
theorem Valid.compiled (hs : s.Valid) {definer : ObjectId} {programs : Dict String Program}
    (hdefiner : (definer, programs) ∈ s.compiled) {name : String} {p : Program}
    (hname : (name, p) ∈ programs) :
    ∃ h m, s.resident.get? definer = some h ∧ (s.copyOf h).record.methods.get? name = some m ∧
      Program.compile m.source s.runtime.customErrors = .ok p := by
  refine hs.coherent definer name p ?_
  rw [keptProgram, Dict.get?_of_mem hs.compiledOrder hdefiner, Option.bind_some]
  exact Dict.get?_of_mem (hs.programOrder _ hdefiner) hname

/-! ## Copies -/

/-- The session after a change to a copy. -/
def change (s : Session) (h : Handle) (f : Copy → Copy) : Session :=
  { s with copies := s.copies.modify h.index f }

theorem copyOf_change_self {h : Handle} (hgiven : s.Given h) (f : Copy → Copy) :
    (s.change h f).copyOf h = f (s.copyOf h) := by
  have hget : s.copies[h.index]? = some s.copies[h.index] := Array.getElem?_eq_getElem hgiven
  simp only [copyOf, change, Array.getD_eq_getD_getElem?, Array.getElem?_modify, if_true, hget,
    Option.map_some, Option.getD_some]

theorem copyOf_change_ne {h g : Handle} (hne : g ≠ h) (f : Copy → Copy) :
    (s.change h f).copyOf g = s.copyOf g := by
  have hindex : h.index ≠ g.index := by
    intro heq
    apply hne
    cases h
    cases g
    cases heq
    rfl
  simp only [copyOf, change, Array.getD_eq_getD_getElem?, Array.getElem?_modify, if_neg hindex]

theorem given_change {h g : Handle} (f : Copy → Copy) : (s.change h f).Given g ↔ s.Given g := by
  simp only [Given, change, Array.size_modify]

theorem copyOf_change_id {f : Copy → Copy} (hf : ∀ c, (f c).record.id = c.record.id) (h : Handle) :
    ((s.change h f).copyOf h).record.id = (s.copyOf h).record.id := by
  by_cases hgiven : s.Given h
  · rw [copyOf_change_self hgiven, hf]
  · -- There is no copy to change.
    have hnone : s.copies[h.index]? = none := Array.getElem?_eq_none (Nat.le_of_not_lt hgiven)
    simp only [copyOf, change, Array.getD_eq_getD_getElem?, Array.getElem?_modify, if_true, hnone,
      Option.map_none]

theorem change_change (s : Session) (h : Handle) (f g : Copy → Copy) :
    (s.change h f).change h g = s.change h fun c => g (f c) := by
  refine congrArg (fun copies => { s with copies }) (Array.ext_getElem? fun i => ?_)
  simp only [change, Array.getElem?_modify]
  split
  · rw [Option.map_map]
    rfl
  · rfl

/-- A change to a copy, which may touch those methods only of which nothing is kept. -/
theorem Valid.change (hs : s.Valid) (h : Handle) {f : Copy → Copy}
    (hid : (f (s.copyOf h)).record.id = (s.copyOf h).record.id)
    (hmethods : ∀ name, keptProgram s (s.copyOf h).record.id name ≠ none →
      (f (s.copyOf h)).record.methods.get? name = (s.copyOf h).record.methods.get? name) :
    (s.change h f).Valid where
  residentOrder := hs.residentOrder
  compiledOrder := hs.compiledOrder
  programOrder := hs.programOrder
  given := fun id g hg => (given_change f).mpr (hs.given id g hg)
  named := by
    intro id g hg
    have hnamed := hs.named id g hg
    by_cases hgh : g = h
    · subst hgh
      rw [copyOf_change_self (hs.given id g hg), hid]
      exact hnamed
    · rw [copyOf_change_ne hgh]
      exact hnamed
  coherent := by
    intro definer name p hkept
    obtain ⟨g, m, hg, hm, hp⟩ := hs.coherent definer name p hkept
    refine ⟨g, m, hg, ?_, hp⟩
    by_cases hgh : g = h
    · subst hgh
      rw [copyOf_change_self (hs.given definer g hg)]
      rw [hmethods name ?_]
      · exact hm
      · rw [hs.named definer g hg, show keptProgram s definer name = some p from hkept]
        exact Option.some_ne_none p
    · rw [copyOf_change_ne hgh]
      exact hm

/-! ## Residents -/

/-- The session after a new copy has become resident. -/
def adopting (s : Session) (record : Record) : Session :=
  { s with
    copies := s.copies.push { record }
    resident := s.resident.put record.id ⟨s.copies.size⟩ }

theorem copyOf_adopting {h : Handle} (hgiven : s.Given h) (record : Record) :
    (s.adopting record).copyOf h = s.copyOf h := by
  have hne : h.index ≠ s.copies.size := Nat.ne_of_lt hgiven
  simp only [copyOf, adopting, Array.getD_eq_getD_getElem?, Array.getElem?_push, if_neg hne]

theorem copyOf_adopting_new (record : Record) :
    (s.adopting record).copyOf ⟨s.copies.size⟩ = { record } := by
  simp only [copyOf, adopting, Array.getD_eq_getD_getElem?, Array.getElem?_push, if_true,
    Option.getD_some]

/-- A copy of an object that was not resident becomes resident. -/
theorem Valid.adopting (hs : s.Valid) {record : Record} (hnew : s.resident.get? record.id = none) :
    (s.adopting record).Valid where
  residentOrder := hs.residentOrder.put _ _
  compiledOrder := hs.compiledOrder
  programOrder := hs.programOrder
  given := by
    intro id g hg
    have hsize : (s.adopting record).copies.size = s.copies.size + 1 := Array.size_push ..
    rw [Session.adopting, Dict.get?_put] at hg
    by_cases hid : id = record.id
    · rw [if_pos hid] at hg
      cases hg
      simp only [Given, hsize]
      omega
    · rw [if_neg hid] at hg
      have hlt : g.index < s.copies.size := hs.given id g hg
      simp only [Given, hsize]
      omega
  named := by
    intro id g hg
    rw [Session.adopting, Dict.get?_put] at hg
    by_cases hid : id = record.id
    · rw [if_pos hid] at hg
      cases hg
      rw [copyOf_adopting_new, hid]
    · rw [if_neg hid] at hg
      rw [copyOf_adopting (hs.given id g hg)]
      exact hs.named id g hg
  coherent := by
    intro definer name p hkept
    obtain ⟨g, m, hg, hm, hp⟩ := hs.coherent definer name p hkept
    -- Programs are kept for resident objects only, which this one was not.
    have hne : definer ≠ record.id := by
      rintro rfl
      rw [hnew] at hg
      cases hg
    refine ⟨g, m, ?_, ?_, hp⟩
    · rw [Session.adopting, Dict.get?_put, if_neg hne]
      exact hg
    · rw [copyOf_adopting (hs.given definer g hg)]
      exact hm

/-- The session after an object has left memory. -/
def dropping (s : Session) (id : ObjectId) : Session :=
  { s with resident := s.resident.remove id, compiled := s.compiled.remove id }

theorem resident_dropping (hs : s.Valid) (id other : ObjectId) :
    (s.dropping id).resident.get? other = if other = id then none else s.resident.get? other :=
  Dict.get?_remove hs.residentOrder id other

theorem kept_dropping (hs : s.Valid) (id other : ObjectId) (name : String) :
    keptProgram (s.dropping id) other name = if other = id then none else keptProgram s other name := by
  rw [keptProgram, dropping, Dict.get?_remove hs.compiledOrder]
  split
  · rfl
  · rfl

/-- An object leaves memory, and what is kept of its methods with it. -/
theorem Valid.dropping (hs : s.Valid) (id : ObjectId) : (s.dropping id).Valid where
  residentOrder := hs.residentOrder.remove id
  compiledOrder := hs.compiledOrder.remove id
  programOrder := fun e he => hs.programOrder e (Dict.mem_remove he)
  given := by
    intro other g hg
    rw [resident_dropping hs] at hg
    split at hg
    · cases hg
    · exact hs.given other g hg
  named := by
    intro other g hg
    rw [resident_dropping hs] at hg
    split at hg
    · cases hg
    · exact hs.named other g hg
  coherent := by
    intro definer name p hkept
    rw [kept_dropping hs] at hkept
    split at hkept
    · cases hkept
    · rename_i hne
      obtain ⟨g, m, hg, hm, hp⟩ := hs.coherent definer name p hkept
      refine ⟨g, m, ?_, hm, hp⟩
      rw [resident_dropping hs, if_neg hne]
      exact hg

/-- A copy of an object that was not resident is replaced and becomes resident. -/
theorem Valid.replacing (hs : s.Valid) {h : Handle} (hgiven : s.Given h) {record : Record}
    (hid : (s.copyOf h).record.id = record.id) (hnew : s.resident.get? record.id = none) :
    Valid { s.change h (fun _ => { record }) with resident := s.resident.put record.id h } := by
  -- The copy was resident for no object: it would have been for this one.
  have hother (id : ObjectId) (g : Handle) (hg : s.resident.get? id = some g) : g ≠ h := by
    rintro rfl
    have hnamed := hs.named id g hg
    rw [hid] at hnamed
    rw [hnamed, hg] at hnew
    cases hnew
  exact {
    residentOrder := hs.residentOrder.put _ _
    compiledOrder := hs.compiledOrder
    programOrder := hs.programOrder
    given := by
      intro id g hg
      refine (given_change _).mpr ?_
      rw [Dict.get?_put] at hg
      split at hg
      · cases hg
        exact hgiven
      · exact hs.given id g hg
    named := by
      intro id g hg
      show ((s.change h fun _ => { record }).copyOf g).record.id = id
      rw [Dict.get?_put] at hg
      split at hg
      · rename_i heq
        cases hg
        rw [copyOf_change_self hgiven, heq]
      · rw [copyOf_change_ne (hother id g hg)]
        exact hs.named id g hg
    coherent := by
      intro definer name p hkept
      obtain ⟨g, m, hg, hm, hp⟩ := hs.coherent definer name p hkept
      have hne : definer ≠ record.id := by
        rintro rfl
        rw [hnew] at hg
        cases hg
      refine ⟨g, m, ?_, ?_, hp⟩
      · rw [Dict.get?_put, if_neg hne]
        exact hg
      · show ((s.change h fun _ => { record }).copyOf g).record.methods.get? name = some m
        rw [copyOf_change_ne (hother definer g hg)]
        exact hm }

/-! ## Compiled methods -/

/-- The session after what a method was compiled to is forgotten. -/
def forgetting (s : Session) (definer : ObjectId) (name : String) : Session :=
  match s.compiled.get? definer with
  | some programs => { s with compiled := s.compiled.put definer (Dict.remove programs name) }
  | none => s

theorem kept_forgetting (hs : s.Valid) (definer : ObjectId) (name : String) (other : ObjectId)
    (name' : String) : keptProgram (s.forgetting definer name) other name' =
      if other = definer ∧ name' = name then none else keptProgram s other name' := by
  unfold forgetting
  cases hprograms : s.compiled.get? definer with
  | none =>
    show keptProgram s other name' = _
    split
    · rename_i heq
      rw [keptProgram, heq.1, hprograms]
      rfl
    · rfl
  | some programs =>
    simp only [keptProgram]
    rw [Dict.get?_put]
    by_cases hother : other = definer
    · have horder : programs.Ordered := hs.programOrder _ (Dict.mem_of_get? hprograms)
      rw [if_pos hother, hother, hprograms, Option.bind_some, Option.bind_some,
        Dict.get?_remove horder]
      simp only [true_and]
    · rw [if_neg hother]
      simp only [hother, false_and, if_false]

theorem Valid.forgetting (hs : s.Valid) (definer : ObjectId) (name : String) :
    (s.forgetting definer name).Valid := by
  have hkept := kept_forgetting hs definer name
  unfold Session.forgetting at hkept ⊢
  cases hprograms : s.compiled.get? definer with
  | none => exact hs
  | some programs =>
    simp only [hprograms] at hkept
    refine ⟨hs.residentOrder, hs.compiledOrder.put _ _, ?_, hs.given, hs.named, ?_⟩
    · intro e he
      rcases Dict.mem_put he with rfl | he
      · exact (hs.programOrder _ (Dict.mem_of_get? hprograms)).remove name
      · exact hs.programOrder e he
    · intro other name' p hp
      rw [hkept] at hp
      split at hp
      · cases hp
      · exact hs.coherent other name' p hp

/-- Forgetting and changing copies do not get in each other's way. -/
theorem forgetting_change (s : Session) (h : Handle) (f : Copy → Copy) (definer : ObjectId)
    (name : String) : (s.change h f).forgetting definer name = (s.forgetting definer name).change h f := by
  have hcompiled : (s.change h f).compiled = s.compiled := rfl
  unfold forgetting
  rw [hcompiled]
  cases s.compiled.get? definer <;> rfl

theorem copyOf_forgetting (s : Session) (h : Handle) (definer : ObjectId) (name : String) :
    (s.forgetting definer name).copyOf h = s.copyOf h := by
  unfold forgetting
  cases s.compiled.get? definer <;> rfl

/-- The session after it is kept what a method was compiled to. -/
def keeping (s : Session) (definer : ObjectId) (name : String) (p : Program) : Session :=
  { s with
    compiled := s.compiled.put definer (((s.compiled.get? definer).getD []).put name p)
    compilations := s.compilations + 1 }

theorem kept_keeping (s : Session) (definer : ObjectId) (name : String) (p : Program)
    (other : ObjectId) (name' : String) : keptProgram (s.keeping definer name p) other name' =
      if other = definer ∧ name' = name then some p else keptProgram s other name' := by
  rw [keptProgram, keeping, Dict.get?_put]
  by_cases hother : other = definer
  · rw [if_pos hother, hother, Option.bind_some, Dict.get?_put]
    simp only [true_and]
    by_cases hname : name' = name
    · rw [if_pos hname, if_pos hname]
    · rw [if_neg hname, if_neg hname, keptProgram]
      cases s.compiled.get? definer <;> rfl
  · rw [if_neg hother]
    simp only [hother, false_and, if_false]
    rfl

/-- It is kept what a method of a resident copy was compiled to. -/
theorem Valid.keeping (hs : s.Valid) {definer : ObjectId} {name : String} {p : Program} {h : Handle}
    {m : MethodDef} (hres : s.resident.get? definer = some h)
    (hm : (s.copyOf h).record.methods.get? name = some m)
    (hp : Program.compile m.source s.runtime.customErrors = .ok p) :
    (s.keeping definer name p).Valid where
  residentOrder := hs.residentOrder
  compiledOrder := hs.compiledOrder.put _ _
  programOrder := by
    intro e he
    rcases Dict.mem_put he with rfl | he
    · cases hprograms : s.compiled.get? definer with
      | none => exact Dict.Ordered.nil.put _ _
      | some programs => exact (hs.programOrder _ (Dict.mem_of_get? hprograms)).put _ _
    · exact hs.programOrder e he
  given := hs.given
  named := hs.named
  coherent := by
    intro other name' q hq
    rw [kept_keeping] at hq
    split at hq
    · rename_i heq
      obtain ⟨rfl, rfl⟩ := heq
      cases hq
      exact ⟨h, m, hres, hm, hp⟩
    · exact hs.coherent other name' q hq

end Session

end Lineage
