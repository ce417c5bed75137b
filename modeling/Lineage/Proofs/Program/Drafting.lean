/-
  Lineage.Proofs.Program.Drafting

  What the code generator does to a draft.

  Code is only ever added to a draft, and every label is placed once by the construct
  that made it.  So what is in a draft, but for the labels that are still to be placed,
  is in the program that the draft ends up in (`Holds`).  What a part of the generator
  does is said by `Writes`: how it changes what the draft knows of the code around
  (`Level`), which labels it leaves to be placed, and what code the program has for it.

  All this needs the numbers that instructions carry to fit in 16 bits.
-/
import Lineage.Proofs.Program.Layout
import Lineage.Proofs.Script.Parts

namespace Lineage

open Script

/-! ## Arrays that grow -/

/-- Whatever one array holds, another holds in the same place. -/
def Initial {α : Type} (a b : Array α) : Prop :=
  ∀ (i : Nat) (x : α), a[i]? = some x → b[i]? = some x

namespace Initial

variable {α : Type} {a b c : Array α} {x : α}

theorem refl (a : Array α) : Initial a a := fun _ _ h => h

theorem trans (h : Initial a b) (k : Initial b c) : Initial a c :=
  fun i x hx => k i x (h i x hx)

theorem push (a : Array α) (x : α) : Initial a (a.push x) := by
  intro i y h
  have hi : i < a.size := (Array.getElem?_eq_some_iff.mp h).1
  rw [Array.getElem?_push_lt hi]
  simpa [Array.getElem?_eq_getElem hi] using h

theorem last (h : Initial (a.push x) b) : b[a.size]? = some x := h a.size x (by simp)

end Initial

namespace Draft

/-! ## The program that a draft ends up in -/

/-- What a draft knows of the code around the code to come. -/
structure Level where
  height : Nat
  loops : List LoopExits
  scopes : Nat

/-- The level after `n` more values have been left on the stack. -/
def Level.up (L : Level) (n : Nat) : Level := { L with height := L.height + n }

/-- The level of a draft. -/
def level (d : Draft) : Level := ⟨d.height, d.loops, d.scopes⟩

/-- A draft at a level, in which the labels of `U` are still to be placed.  There have been at least
as many instructions as an instruction at this level may have to count. -/
structure Ready (C : Value → Prop) (L : Level) (U : List Label) (d : Draft) : Prop where
  level : d.level = L
  constants : ∀ v ∈ d.literals, C v
  pending : ∀ l ∈ U, l.slot.toNat < d.labels.size
  height : L.height ≤ d.ops.size
  scopes : L.scopes ≤ d.ops.size
  loops : ∀ e ∈ L.loops,
    e.continueHeight ≤ d.ops.size ∧ e.breakHeight ≤ d.ops.size ∧ e.scopes ≤ d.ops.size

/-- What is in a draft, but for the labels of `U`, is in a program. -/
structure Holds (p : Program) (U : List Label) (d : Draft) : Prop where
  ops : Initial d.ops p.ops
  literals : Initial d.literals p.literals
  tables : Initial d.scatterTables p.scatterTables
  labels : ∀ s < d.labels.size, (∀ l ∈ U, l.slot.toNat ≠ s) → p.labels[s]? = d.labels[s]?
  ops_lt : d.ops.size < UInt16.size
  labels_le : d.labels.size ≤ UInt16.size
  literals_le : d.literals.size ≤ UInt16.size
  tables_le : d.scatterTables.size ≤ UInt16.size

/-- What a part of the generator does, starting at level `L` with the labels of `U` to be placed.
`P p a i j` says what code a program has from `i` up to `j` if the part came to `a`. -/
def Writes {α : Type} (C : Value → Prop) (L : Level) (U : List Label) (x : Drafting α)
    (L' : Level) (U' : α → List Label) (P : Program → α → Nat → Nat → Prop) : Prop :=
  ∀ d a d', Ready C L U d → x d = .ok (a, d') →
    Ready C L' (U' a) d' ∧
    ∀ p, Holds p (U' a) d' → Holds p U d ∧ P p a d.ops.size d'.ops.size

/-- A part of the generator that is made of two comes to what the second comes to after the first. -/
theorem run_bind {α β : Type} {x : Drafting α} {f : α → Drafting β} {d : Draft} {r : β × Draft}
    (h : (x >>= f) d = .ok r) : ∃ a d₁, x d = .ok (a, d₁) ∧ f a d₁ = .ok r := by
  have hbind : (x >>= f) d = (x d).bind fun s => f s.1 s.2 := rfl
  rw [hbind] at h
  cases hx : x d with
  | error e => rw [hx] at h; cases h
  | ok s => rw [hx] at h; exact ⟨s.1, s.2, rfl, h⟩

namespace Writes

variable {α β : Type} {C : Value → Prop} {L L₁ L₂ : Level} {U : List Label}
  {U₁ : α → List Label} {U₂ : β → List Label} {x : Drafting α}
  {P : Program → α → Nat → Nat → Prop}

/-- One part after another, which has to be right only for what the first may come to. -/
theorem bind_of {f : α → Drafting β} {Q : α → Program → β → Nat → Nat → Prop}
    (hx : Writes C L U x L₁ U₁ P)
    (hf : ∀ a, (∃ d d', x d = .ok (a, d')) → Writes C L₁ (U₁ a) (f a) L₂ U₂ (Q a)) :
    Writes C L U (x >>= f) L₂ U₂ fun p b i j => ∃ a k, P p a i k ∧ Q a p b k j := by
  intro d b d₂ hd hrun
  obtain ⟨a, d₁, ha, hb⟩ := run_bind hrun
  obtain ⟨hd₁, hback₁⟩ := hx d a d₁ hd ha
  obtain ⟨hd₂, hback₂⟩ := hf a ⟨d, d₁, ha⟩ d₁ b d₂ hd₁ hb
  refine ⟨hd₂, fun p hp => ?_⟩
  obtain ⟨hp₁, hQ⟩ := hback₂ p hp
  obtain ⟨hp₀, hP⟩ := hback₁ p hp₁
  exact ⟨hp₀, a, d₁.ops.size, hP, hQ⟩

theorem bind {f : α → Drafting β} {Q : α → Program → β → Nat → Nat → Prop}
    (hx : Writes C L U x L₁ U₁ P) (hf : ∀ a, Writes C L₁ (U₁ a) (f a) L₂ U₂ (Q a)) :
    Writes C L U (x >>= f) L₂ U₂ fun p b i j => ∃ a k, P p a i k ∧ Q a p b k j :=
  hx.bind_of fun a _ => hf a

theorem imp {Q : Program → α → Nat → Nat → Prop} (hx : Writes C L U x L₁ U₁ P)
    (h : ∀ p a i j, P p a i j → Q p a i j) : Writes C L U x L₁ U₁ Q := by
  intro d a d' hd hrun
  obtain ⟨hd', hback⟩ := hx d a d' hd hrun
  exact ⟨hd', fun p hp => ⟨(hback p hp).1, h _ _ _ _ (hback p hp).2⟩⟩

/-- The order of the labels to be placed does not matter. -/
theorem reorder {U' : List Label} (hx : Writes C L U x L₁ U₁ P) (h : ∀ l, l ∈ U ↔ l ∈ U') :
    Writes C L U' x L₁ U₁ P := by
  intro d a d' hd hrun
  have hd₀ : Ready C L U d := { hd with pending := fun l hl => hd.pending l ((h l).mp hl) }
  obtain ⟨hd', hback⟩ := hx d a d' hd₀ hrun
  refine ⟨hd', fun p hp => ?_⟩
  obtain ⟨hp₀, hP⟩ := hback p hp
  exact ⟨{ hp₀ with labels := fun s hs hl => hp₀.labels s hs fun l hm => hl l ((h l).mp hm) }, hP⟩

theorem pure (U₁ : α → List Label) (a : α) (h : ∀ l, l ∈ U ↔ l ∈ U₁ a) :
    Writes C L U (pure a : Drafting α) L U₁ fun _ b i j => b = a ∧ j = i := by
  have hsame : Writes C L (U₁ a) (Pure.pure a : Drafting α) L U₁ fun _ b i j => b = a ∧ j = i := by
    intro d b d' hd hrun
    cases hrun
    exact ⟨hd, fun p hp => ⟨hp, rfl, rfl⟩⟩
  exact hsame.reorder fun l => (h l).symm

theorem nothing : Writes C L U (Pure.pure () : Drafting Unit) L (fun _ => U) fun _ _ i j => j = i := by
  intro d a d' hd hrun
  cases hrun
  exact ⟨hd, fun p hp => ⟨hp, rfl⟩⟩

theorem throw {e : CompileError} : Writes C L U (throw e : Drafting α) L₁ U₁ P := by
  intro d a d' hd hrun
  exact nomatch (hrun : Except.error e = Except.ok (a, d'))

/-- The height of the stack is never more than 16 bits can hold. -/
theorem room (hx : Writes C L U x L₁ U₁ P) :
    Writes C L U x L₁ U₁ fun p a i j => P p a i j ∧ L₁.height < UInt16.size := by
  intro d a d' hd hrun
  obtain ⟨hd', hback⟩ := hx d a d' hd hrun
  refine ⟨hd', fun p hp => ?_⟩
  obtain ⟨hp₀, hP⟩ := hback p hp
  exact ⟨hp₀, hP, Nat.lt_of_le_of_lt hd'.height hp.ops_lt⟩

end Writes

/-! ## Instructions and labels -/

section

variable {C : Value → Prop} {L : Level} {U : List Label}

/-- An instruction, with whatever else changes the level alone. -/
theorem Writes.op {x : Drafting Unit} {L' : Level} {op : Op} {set : Draft → Draft}
    (hrun : ∀ d, x d = .ok ((), set d))
    (hset : ∀ d, d.level = L → set d = { d with
      ops := d.ops.push op, height := L'.height, loops := L'.loops, scopes := L'.scopes })
    (hheight : L'.height ≤ L.height + 1) (hloops : L'.loops = L.loops)
    (hscopes : L'.scopes ≤ L.scopes + 1) :
    Writes C L U x L' (fun _ => U) fun p _ i j => p.ops[i]? = some op ∧ j = i + 1 := by
  intro d a d' hd hx
  rw [hrun, hset d hd.level] at hx
  cases hx
  have hh := hd.height
  have hs := hd.scopes
  constructor
  · refine ⟨rfl, hd.constants, hd.pending, ?_, ?_, ?_⟩
    · simp only [Array.size_push]; omega
    · simp only [Array.size_push]; omega
    · intro e he
      obtain ⟨h₁, h₂, h₃⟩ := hd.loops e (hloops ▸ he)
      simp only [Array.size_push]
      omega
  · intro p hp
    have hsize := hp.ops_lt
    simp only [Array.size_push] at hsize
    refine ⟨?_, hp.ops.last, by simp⟩
    exact { hp with ops := (Initial.push _ _).trans hp.ops, ops_lt := by omega }

theorem emit_writes (op : Op) :
    Writes C L U (emit op) L (fun _ => U) fun p _ i j => p.ops[i]? = some op ∧ j = i + 1 :=
  .op (fun _ => rfl) (fun _ h => by cases h; rfl) (by omega) rfl (by omega)

theorem emitPush_writes (op : Op) :
    Writes C L U (emitPush op) (L.up 1) (fun _ => U) fun p _ i j =>
      p.ops[i]? = some op ∧ j = i + 1 :=
  .op (fun _ => rfl) (fun _ h => by cases h; rfl) (Nat.le_refl _) rfl (Nat.le_succ _)

theorem emitTake_writes (op : Op) (n : Nat) :
    Writes C (L.up n) U (emitTake op n) L (fun _ => U) fun p _ i j =>
      p.ops[i]? = some op ∧ j = i + 1 := by
  refine .op (fun _ => rfl) ?_ ?_ rfl (Nat.le_succ _)
  · intro d h
    have hh : d.height - n = L.height := by
      have := congrArg Level.height h
      simp only [level, Level.up] at this
      omega
    have hl : d.loops = L.loops := congrArg Level.loops h
    have hs : d.scopes = L.scopes := congrArg Level.scopes h
    simp only [hh, ← hl, ← hs]
  · simp only [Level.up]; omega

/-- A change of the level alone. -/
theorem Writes.relevel {L' : Level} {set : Draft → Draft}
    (hset : ∀ d, d.level = L → set d = { d with
      height := L'.height, loops := L'.loops, scopes := L'.scopes })
    (hheight : L'.height ≤ L.height) (hscopes : L'.scopes ≤ L.scopes)
    (hloops : ∀ e ∈ L'.loops, e ∈ L.loops ∨
      e.continueHeight ≤ L.height ∧ e.breakHeight ≤ L.height ∧ e.scopes ≤ L.scopes) :
    Writes C L U (modify set) L' (fun _ => U) fun _ _ i j => j = i := by
  intro d a d' hd hrun
  have hrun : Except.ok ((), set d) = Except.ok (a, d') := hrun
  rw [hset d hd.level] at hrun
  cases hrun
  have hh := hd.height
  have hs := hd.scopes
  refine ⟨⟨rfl, hd.constants, hd.pending, by simp only; omega, by simp only; omega, ?_⟩,
    fun p hp => ⟨{ hp with }, rfl⟩⟩
  intro e he
  rcases hloops e he with hold | hnew
  · exact hd.loops e hold
  · simp only; omega

/-- Values that are taken off without an instruction. -/
theorem lower_writes (n : Nat) :
    Writes C (L.up n) U (adjust (· - n)) L (fun _ => U) fun _ _ i j => j = i := by
  refine .relevel ?_ (Nat.le_add_right _ _) (Nat.le_refl _) fun _ h => .inl h
  intro d h
  obtain ⟨height, loops, scopes⟩ := L
  obtain ⟨hheight, rfl, rfl⟩ := Level.mk.inj h
  simp only [hheight, Nat.add_sub_cancel]

/-- The start of a statement says nothing of the program. -/
theorem startStatement_writes (line : Nat) :
    Writes C L U (startStatement line) L (fun _ => U) fun _ _ i j => j = i := by
  intro d a d' hd hrun
  cases hrun
  exact ⟨{ hd with }, fun p hp => ⟨{ hp with }, rfl⟩⟩

theorem newLabel_writes (owner : Option Name) :
    Writes C L U (newLabel owner) L (fun l => l :: U) fun _ l i j => l ∉ U ∧ j = i := by
  intro d l d' hd hrun
  cases hrun
  constructor
  · refine { hd with pending := ?_ }
    intro l hl
    rcases List.mem_cons.mp hl with rfl | hl
    · simp only [Label.ofNat, UInt16.toNat_ofNat', Array.size_push]
      exact Nat.lt_succ_of_le (Nat.mod_le _ _)
    · simp only [Array.size_push]
      exact Nat.lt_succ_of_lt (hd.pending l hl)
  · intro p hp
    have hsize := hp.labels_le
    simp only [Array.size_push] at hsize
    have hslot : (Label.ofNat d.labels.size).slot.toNat = d.labels.size :=
      UInt16.toNat_ofNat_of_lt' (by omega)
    refine ⟨{ hp with labels := ?_, labels_le := by omega }, ?_, rfl⟩
    · intro s hs hU
      rw [hp.labels s (by simp only [Array.size_push]; omega) ?_]
      · rw [Array.getElem?_push_lt hs, Array.getElem?_eq_getElem hs]
      · intro l hl
        rcases List.mem_cons.mp hl with rfl | hl
        · rw [hslot]; omega
        · exact hU l hl
    · intro hmem
      have hlt := hd.pending _ hmem
      omega

theorem place_writes (l : Label) (U' : List Label) (hU : ∀ x, x ∈ U ↔ x = l ∨ x ∈ U') :
    Writes C L U (place l) L (fun _ => U') fun p _ i j =>
      j = i ∧ (l ∉ U' → p.target l = some i) := by
  intro d a d' hd hrun
  cases hrun
  constructor
  · refine { hd with pending := ?_ }
    intro x hx
    simpa using hd.pending x ((hU x).mpr (.inr hx))
  · intro p hp
    have hlabels : ∀ s < d.labels.size, (∀ x ∈ U', x.slot.toNat ≠ s) → p.labels[s]? =
        (d.labels.modify l.slot.toNat fun jump => { jump with position := d.here })[s]? := by
      intro s hs hx
      exact hp.labels s (by simpa using hs) hx
    refine ⟨{ hp with labels := ?_, labels_le := by simpa using hp.labels_le }, rfl, ?_⟩
    · intro s hs hx
      have hne : l.slot.toNat ≠ s := hx l ((hU l).mpr (.inl rfl))
      rw [hlabels s hs fun x hm => hx x ((hU x).mpr (.inr hm)), Array.getElem?_modify, if_neg hne]
    · intro hl
      have hslot := hd.pending l ((hU l).mpr (.inl rfl))
      have hops : d.ops.size < UInt16.size := hp.ops_lt
      have hlabel := hlabels l.slot.toNat hslot ?_
      · rw [Program.target, hlabel]
        simp [Array.getElem?_modify, Array.getElem?_eq_getElem hslot, here, UInt16.toNat_ofNat_of_lt' hops]
      · intro x hx heq
        -- A label is its slot.
        have : x = l := by
          cases x; cases l
          exact congrArg Label.mk (UInt16.toNat_inj.mp heq)
        exact hl (this ▸ hx)

theorem scatterTable_writes (t : ScatterTable) :
    Writes C L U (scatterTable t) L (fun _ => U) fun p slot i j =>
      p.scatterTables[slot.toNat]? = some t ∧ j = i := by
  intro d slot d' hd hrun
  cases hrun
  refine ⟨{ hd with }, fun p hp => ?_⟩
  have hsize := hp.tables_le
  simp only [Array.size_push] at hsize
  refine ⟨{ hp with tables := (Initial.push _ _).trans hp.tables, tables_le := by omega }, ?_, rfl⟩
  rw [UInt16.toNat_ofNat_of_lt' (by omega)]
  exact hp.tables.last

theorem literal_run (v : Value) (d : Draft) : literal v d = match d.literals.findIdx? (·.equals v) with
    | some n => .ok (Label.ofNat n, d)
    | none => .ok (Label.ofNat d.literals.size, { d with literals := d.literals.push v }) := by
  unfold literal
  show (match d.literals.findIdx? (·.equals v) with
    | some n => pure (Label.ofNat n)
    | none => _ : Drafting Label) d = _
  cases d.literals.findIdx? (·.equals v) <;> rfl

/-- Constants that are told apart get each its own slot. -/
theorem literal_writes (hC : Distinct C) {v : Value} (hv : C v) :
    Writes C L U (literal v) L (fun _ => U) fun p l i j =>
      p.literals[l.slot.toNat]? = some v ∧ j = i := by
  intro d l d' hd hrun
  cases hfind : d.literals.findIdx? (·.equals v) with
  | some n =>
    rw [literal_run, hfind] at hrun
    cases hrun
    refine ⟨hd, fun p hp => ⟨hp, ?_, rfl⟩⟩
    obtain ⟨hn, heq, -⟩ := Array.findIdx?_eq_some_iff_getElem.mp hfind
    have hsame : d.literals[n] = v := hC _ _ (hd.constants _ (Array.getElem_mem hn)) hv heq
    have hle := hp.literals_le
    simp only [Label.ofNat]
    rw [UInt16.toNat_ofNat_of_lt' (by omega)]
    exact hp.literals n v (by rw [Array.getElem?_eq_getElem hn, hsame])
  | none =>
    rw [literal_run, hfind] at hrun
    cases hrun
    constructor
    · refine { hd with constants := ?_ }
      intro u hu
      rcases Array.mem_push.mp hu with hu | rfl
      · exact hd.constants u hu
      · exact hv
    · intro p hp
      have hsize := hp.literals_le
      simp only [Array.size_push] at hsize
      refine ⟨{ hp with
        literals := (Initial.push _ _).trans hp.literals, literals_le := by omega }, ?_, rfl⟩
      simp only [Label.ofNat]
      rw [UInt16.toNat_ofNat_of_lt' (by omega)]
      exact hp.literals.last

end

end Draft

end Lineage
