/-
  Lineage.Proofs.World.Lookups

  What a lookup finds.

  Properties, methods and commands are looked up along the chain of an object, and the
  nearest record that owns what is wanted decides (`Nearest`).  That holds of every handle,
  whatever the parents are like, and no record changes by it
  (`World.Coherent.lookup_nearest`).  When no record of the chain qualifies nothing is found;
  only if the store failed to give a parent does the lookup fail too
  (`World.Coherent.lookup_fails_stranded`).
-/
import Lineage.Proofs.World.Chains
import Lineage.Proofs.World.Reachable

namespace Lineage

/-- What comes of looking along a chain.  The nearest record that qualifies decides; if there is
none nothing is found, and if a failure has cut the chain short it is not known. -/
inductive Nearest {α : Type} (owns : Record → Prop) (gives : Record → α → Prop)
    (chain : List Record) (cut : Option StoreError) : Except RuntimeError (Option α) → Prop
  | owner {before after : List Record} {r : Record} {a : α} (hchain : chain = before ++ r :: after)
    (hbefore : ∀ b ∈ before, ¬owns b) (howns : owns r) (hgives : gives r a) :
    Nearest owns gives chain cut (.ok (some a))
  | nobody (hnone : ∀ r ∈ chain, ¬owns r) (hwhole : cut = none) :
    Nearest owns gives chain cut (.ok none)
  | unknown {e : StoreError} (hnone : ∀ r ∈ chain, ¬owns r) (hcut : cut = some e) :
    Nearest owns gives chain cut (.error (.persistence e))

theorem nearest_along {α : Type} {owns : Record → Prop} {gives : Record → α → Prop}
    {probe : Record → Option α} (hsome : ∀ r a, probe r = some a → owns r ∧ gives r a)
    (hnone : ∀ r, probe r = none → ¬owns r) (chain : List Record) (cut : Option StoreError) :
    Nearest owns gives chain cut ((along probe chain cut).mapError RuntimeError.persistence) := by
  unfold along
  cases hfound : chain.findSome? probe with
  | some a =>
    obtain ⟨before, r, after, hchain, hprobe, hbefore⟩ := List.findSome?_eq_some_iff.mp hfound
    obtain ⟨howns, hgives⟩ := hsome r a hprobe
    exact .owner hchain (fun b hb => hnone b (hbefore b hb)) howns hgives
  | none =>
    have hnobody : ∀ r ∈ chain, ¬owns r := fun r hr =>
      hnone r (List.findSome?_eq_none_iff.mp hfound r hr)
    cases cut with
    | none => exact .nobody hnobody rfl
    | some e => exact .unknown hnobody rfl

/-- A word invokes a method of this name: it may be called, and it is named by the word or has it
for an alias. -/
def Record.Answers (r : Record) (word name : String) : Prop :=
  ∃ m, (name, m) ∈ r.methods.entries ∧ m.callable = true ∧ (name = word ∨ word ∈ m.aliases)

namespace World

theorem answersTo_iff {word name : String} {m : MethodDef} :
    answersTo word name m = true ↔ m.callable = true ∧ (name = word ∨ word ∈ m.aliases) := by
  rw [answersTo, Bool.and_eq_true, Bool.or_eq_true, beq_iff_eq, List.contains_iff_mem]

/-- In the order of the names the first method that answers has the least name. -/
theorem first_is_least {methods : OrderedDict String MethodDef} {p : String × MethodDef → Bool}
    {e : String × MethodDef} (hfirst : methods.entries.find? p = some e)
    {other : String × MethodDef} (hmem : other ∈ methods.entries) (hother : p other = true) :
    compare e.1 other.1 ≠ .gt := by
  obtain ⟨-, before, after, hentries, hbefore⟩ := List.find?_eq_some_iff_append.mp hfirst
  have hordered : Dict.Ordered (before ++ e :: after) := hentries ▸ methods.ordered
  rw [hentries] at hmem
  rcases List.mem_append.mp hmem with hmem | hmem
  · have hskipped := hbefore other hmem
    rw [hother] at hskipped
    cases hskipped
  · rcases List.mem_cons.mp hmem with rfl | hmem
    · rw [show compare other.1 other.1 = .eq from Std.LawfulEqOrd.compare_eq_iff_eq.mpr rfl]
      exact nofun
    · have hlt := List.rel_of_pairwise_cons (List.pairwise_append.mp hordered).2.1 hmem
      rw [hlt]
      exact nofun

/-- An operation comes to what is found along a chain, and changes no record. -/
def LooksUp {α : Type} (w : World) (x : Action (Option α)) (chain : List Record)
    (cut : Option StoreError) (owns : Record → Prop) (gives : Record → α → Prop) : Prop :=
  ∃ result w', x.run w = (result, w') ∧ Browsed w w' ∧ Nearest owns gives chain cut result

theorem resolve_looksUp {α : Type} {w : World} (hw : w.Coherent) {h : Handle} {chain : List Record}
    {cut : Option StoreError} (hchain : Chain w.met [] (w.session.copyOf h).record chain cut)
    {owns : Record → Prop} {gives : Record → α → Prop} {probe : Record → Option α}
    (hsome : ∀ r a, probe r = some a → owns r ∧ gives r a) (hnone : ∀ r, probe r = none → ¬owns r) :
    w.LooksUp (resolve h probe) chain cut owns gives := by
  obtain ⟨w', hrun, hbrowsed⟩ := resolve_along hw hchain probe
  exact ⟨_, w', hrun, hbrowsed, nearest_along hsome hnone chain cut⟩

/-- From every handle there is one chain, which ends.  The value of a property is that of the
nearest record on it that owns the property, a method is found with its owner on the nearest
record that owns one, and a word invokes the method with the least name of those that answer to
it on the nearest record that has any. -/
theorem Coherent.lookup_nearest {w : World} (hw : w.Coherent) (h : Handle) : ∃ chain cut,
    (∀ chain' cut', Chain w.met [] (w.session.copyOf h).record chain' cut' ↔
      chain' = chain ∧ cut' = cut) ∧
    (∀ name, w.LooksUp (property? h name) chain cut (fun r => r.properties.has name = true)
      fun r v => r.properties.get? name = some v) ∧
    (∀ name, w.LooksUp (findMethod h name) chain cut (fun r => r.methods.has name = true)
      fun r found => found.1 = r.id ∧ r.methods.get? name = some found.2) ∧
    (∀ word, w.LooksUp (findCommand h word) chain cut (fun r => ∃ name, r.Answers word name)
      fun r found => found.1 = r.id ∧ r.Answers word found.2 ∧
        ∀ other, r.Answers word other → compare found.2 other ≠ .gt) := by
  obtain ⟨chain, cut, hchain⟩ := has_chain hw (w.session.copyOf h).record
  refine ⟨chain, cut, fun chain' cut' => ⟨hchain.unique, ?_⟩, fun name => ?_, fun name => ?_,
    fun word => ?_⟩
  · rintro ⟨rfl, rfl⟩
    exact hchain
  -- Properties
  · exact resolve_looksUp hw hchain (fun r v hv => ⟨OrderedDict.has_of_get? hv, hv⟩) fun r hnone =>
      OrderedDict.get?_eq_none_iff.mp hnone
  -- Methods
  · refine resolve_looksUp hw hchain (fun r found hfound => ?_) fun r hnone =>
      OrderedDict.get?_eq_none_iff.mp (Option.map_eq_none_iff.mp hnone)
    obtain ⟨m, hm, rfl⟩ := Option.map_eq_some_iff.mp hfound
    exact ⟨OrderedDict.has_of_get? hm, rfl, hm⟩
  -- Commands, where the first method in the order of the names is taken
  · refine resolve_looksUp hw hchain (fun r found hfound => ?_) fun r hnone howns => ?_
    · obtain ⟨⟨name, m⟩, hfirst, rfl⟩ := Option.map_eq_some_iff.mp hfound
      have hm : answersTo word name m = true := by simpa only using List.find?_some hfirst
      have hanswers : r.Answers word name :=
        ⟨m, List.mem_of_find?_eq_some hfirst, answersTo_iff.mp hm⟩
      refine ⟨⟨name, hanswers⟩, rfl, hanswers, fun other hother => ?_⟩
      obtain ⟨m', hmem, hm'⟩ := hother
      exact first_is_least hfirst hmem (answersTo_iff.mpr hm')
    · obtain ⟨name, m, hmem, hm⟩ := howns
      have hskipped := List.find?_eq_none.mp (Option.map_eq_none_iff.mp hnone) (name, m) hmem
      exact hskipped (answersTo_iff.mpr hm)

/-- Two objects that have each other for a parent; the first of them has a method. -/
def paired : World :=
  (Operation.create ⟨0⟩ {} {}).after
    ((Operation.setMethod ⟨0⟩ "greet" { source := "return 1;" }).after
      ((Operation.setParent ⟨0⟩ ⟨1⟩).after ((Operation.create .nothing {} {}).after
        ((openSession {}).run (initial (.memory {}) {})).2)))

theorem paired_reachable : Reachable paired := by
  have hcreated := (Reachable.start (.memory {}) {} Store.Faithful.memory_nil).operate
    (.create .nothing {} {}) nofun
  have hmoved := hcreated.operate (.setParent ⟨0⟩ ⟨1⟩) fun h hh => by
    cases hh
    show 0 < _
    decide +kernel
  have hset := hmoved.operate (.setMethod ⟨0⟩ "greet" { source := "return 1;" }) fun h hh => by
    cases hh
    show 0 < _
    decide +kernel
  exact hset.operate (.create ⟨0⟩ {} {}) nofun

/-- The second of them has no method of its own, so that of the first is found; the chain ends where
it would come back to the second. -/
theorem Coherent.lookup_nearest_paired :
    let r (i : Nat) := (paired.session.copyOf ⟨i⟩).record
    Chain paired.met [] (r 1) [r 1, r 0] none ∧
      paired.LooksUp (findMethod ⟨1⟩ "greet") [r 1, r 0] none
        (fun r => r.methods.has "greet" = true)
        fun r found => found.1 = r.id ∧ r.methods.get? "greet" = some found.2 := by
  intro r
  have habove : above paired.met [(r 1).id] (r 1) = .ok (some (r 0)) := rfl
  have hchain : Chain paired.met [] (r 1) [r 1, r 0] none := .next habove (.top rfl)
  obtain ⟨chain, cut, hunique, -, hmethods, -⟩ := paired_reachable.coherent.lookup_nearest ⟨1⟩
  obtain ⟨rfl, rfl⟩ := (hunique _ _).mp hchain
  exact ⟨hchain, hmethods "greet"⟩

/-- An object whose parent has left memory, after the store has been disconnected. -/
def stranded : World :=
  Operation.shutdown.after ((Operation.invalidate ⟨0⟩).after ((Operation.create ⟨0⟩ {} {}).after
    ((Operation.create .nothing {} {}).after ((openSession {}).run (initial (.memory {}) {})).2)))

/-- Nothing on its chain owns the property, and yet looking it up does not come to nothing. -/
theorem Coherent.lookup_fails_stranded : Reachable stranded ∧ ∃ chain cut,
    Chain stranded.met [] (stranded.session.copyOf ⟨1⟩).record chain cut ∧
      (∀ r ∈ chain, r.properties.has "colour" = false) ∧
      ((property? ⟨1⟩ "colour").run stranded).1 = .error (.persistence .notConnected) := by
  have hcreated := (Reachable.start (.memory {}) {} Store.Faithful.memory_nil).operate
    (.create .nothing {} {}) nofun
  have hchild := hcreated.operate (.create ⟨0⟩ {} {}) nofun
  have hreachable := (hchild.operate (.invalidate ⟨0⟩) nofun).operate .shutdown nofun
  refine ⟨hreachable, [(stranded.session.copyOf ⟨1⟩).record], some .notConnected, .broken rfl,
    fun r hr => ?_, rfl⟩
  obtain rfl := List.mem_singleton.mp hr
  rfl

end World

end Lineage
