/-
  Lineage.Proofs.World.CachedTests

  The test for methods that goes by resident copies alone.

  The test follows parents as a lookup does, but takes each from memory or not at all.  It
  comes to an end by itself, whatever the parents are like (`climbCached_settled`).  What it
  finds a lookup finds too, and has nothing to load for it (`climb_of_cached`); what it misses
  a lookup misses too, unless that comes to an object that is not resident
  (`ascend_of_missed`).  Only the lookup asks whether a record has no parent, and so all this
  rests on no object being resident under the id that stands for none
  (`World.Reachable.cached_test_strays`).
-/
import Lineage.Proofs.World.Lookups
import Lineage.Proofs.World.Shadowing

namespace Lineage

-- Nothing here depends on what the compiler makes of a source, or on how a run goes.
attribute [local irreducible] Program.compile Machine.run

/-! ## Walks through memory -/

namespace Session

variable {s : Session}

/-- What is met of an object as long as the store is not asked. -/
def metInMemory (s : Session) (id : ObjectId) : Except StoreError (Option Copy) :=
  .ok ((s.resident.get? id).map s.copyOf)

theorem metInMemory_resident {id : ObjectId} {h : Handle} (hres : s.resident.get? id = some h) :
    s.metInMemory id ≠ .ok none := by
  intro hnone
  rw [metInMemory, hres] at hnone
  cases hnone

theorem metInMemory_bounded (s : Session) : Bounded s.metInMemory s.resident.length := by
  intro ids hnodup hmet
  have hsubset : ids ⊆ s.resident.map Prod.fst := by
    intro id hid
    obtain ⟨h, hres⟩ : ∃ h, s.resident.get? id = some h := by
      apply Option.ne_none_iff_exists'.mp
      intro hnone
      apply hmet id hid
      rw [metInMemory, hnone]
      rfl
    exact List.mem_map_of_mem (f := Prod.fst) (Dict.mem_of_get? hres)
  have hlength := (hnodup.subperm hsubset).length_le
  rw [List.length_map] at hlength
  exact hlength

end Session

namespace World

/-- More steps than there are resident objects make no difference.  Induction on the steps: each
comes to a resident object that has not been visited. -/
theorem climbCached_settled {s : Session} (hvalid : s.Valid) (name : String) {fuel fuel' : Nat}
    {visited : List ObjectId} {h : Handle}
    (hclimbed : Climbed s.metInMemory visited (s.copyOf h).record)
    (hfuel : s.resident.length < fuel + visited.length)
    (hfuel' : s.resident.length < fuel' + visited.length) :
    climbCached s name fuel visited h = climbCached s name fuel' visited h := by
  have hlength := s.metInMemory_bounded visited hclimbed.nodup hclimbed.past
  induction fuel generalizing fuel' visited h with
  | zero => omega
  | succ fuel ih =>
    obtain _ | fuel' := fuel'
    · omega
    · simp only [climbCached]
      by_cases hagain : visited.contains (s.copyOf h).record.id = true
      · rw [if_pos hagain, if_pos hagain]
      · rw [if_neg hagain, if_neg hagain]
        cases hparent : s.resident.get? (s.copyOf h).record.parent with
        | none => rfl
        | some ancestor =>
          have hid : (s.copyOf ancestor).record.id = (s.copyOf h).record.parent :=
            hvalid.named _ _ hparent
          have hnext : Climbed s.metInMemory ((s.copyOf h).record.id :: visited)
              (s.copyOf ancestor).record :=
            hclimbed.next hagain (Session.metInMemory_resident (hid ▸ hparent))
          have hvisited := s.metInMemory_bounded _ hnext.nodup hnext.past
          dsimp only
          rw [ih hnext ?_ ?_ hvisited]
          -- One object more has been visited, one step fewer is left.
          all_goals
            rw [List.length_cons]
            omega

variable {w : World} {name : String}

/-! ## What the test finds -/

/-- A lookup comes to a method in a resident copy, and the world is what it was. -/
def FindsInMemory (w : World) (name : String) (x : Action (Option (ObjectId × MethodDef))) : Prop :=
  ∃ definer owner m, x.run w = (.ok (some (definer, m)), w) ∧ w.At definer owner ∧
    (w.session.copyOf owner).record.methods.get? name = some m

/-- Induction on the steps of the test; the lookup may take more, and takes just the same. -/
theorem climb_of_cached (hw : w.Coherent) (hnothing : w.session.resident.get? .nothing = none)
    {fuel fuel' : Nat} {visited : List ObjectId} {h : Handle}
    (hat : w.At (w.session.copyOf h).record.id h) (hfuel : fuel ≤ fuel')
    (hfound : climbCached w.session name fuel visited h = true) :
    w.FindsInMemory name (climb (ownMethod name) fuel' visited h) := by
  induction fuel generalizing fuel' visited h with
  | zero => cases hfound
  | succ fuel ih =>
    obtain _ | fuel' := fuel'
    · omega
    · have hrecord : recordOf h w = ((w.session.copyOf h).record, w) := rfl
      simp only [climbCached] at hfound
      split at hfound
      · cases hfound
      · rename_i hagain
        rw [FindsInMemory, climb, run_lift_bind, hrecord]
        dsimp only
        rw [if_neg hagain, ownMethod]
        cases hown : (w.session.copyOf h).record.methods.get? name with
        | some m => exact ⟨_, h, m, rfl, hat, hown⟩
        | none =>
          rw [if_neg (OrderedDict.get?_eq_none_iff.mp hown)] at hfound
          cases hparent : w.session.resident.get? (w.session.copyOf h).record.parent with
          | none =>
            rw [hparent] at hfound
            cases hfound
          | some ancestor =>
            rw [hparent] at hfound
            have hid : (w.session.copyOf ancestor).record.id = (w.session.copyOf h).record.parent :=
              hw.session.named _ _ hparent
            -- A parent that is resident is one: nothing is under the id that stands for none.
            have hsome : (w.session.copyOf h).record.parent ≠ .nothing := by
              intro hnone
              rw [hnone, hnothing] at hparent
              cases hparent
            have hpick : (pick true ancestor).run w = (.ok (some ancestor), w) := by
              rw [pick, run_lift_bind, Bool.not_true, show recordOf ancestor w = (_, w) from rfl]
              dsimp only
              rw [Bool.and_false]
              rfl
            dsimp only [Option.map_none]
            rw [if_neg hsome, run_bind, loadWith_resident true hparent, hpick]
            exact ih (by rw [hid]; exact hparent) (Nat.le_of_succ_le_succ hfuel) hfound

/-! ## What the test misses -/

/-- The objects that a lookup of a method comes to from a record, past those that do not own one:
the first is its own, and one that cannot be read is the last. -/
inductive Walked (met : ObjectId → Except StoreError (Option Copy)) (name : String) :
    Record → ObjectId → Prop
  | here (r : Record) : Walked met name r r.id
  | next {r : Record} {c : Copy} {id : ObjectId} (hmiss : ¬r.methods.has name = true)
    (hsome : r.parent ≠ .nothing) (hmet : met r.parent = .ok (some c))
    (rest : Walked met name c.record id) : Walked met name r id
  | unread {r : Record} {e : StoreError} (hmiss : ¬r.methods.has name = true)
    (hsome : r.parent ≠ .nothing) (hmet : met r.parent = .error e) : Walked met name r r.parent

/-- Induction on the steps, which the test and the lookup take together for as long as the
parents are resident. -/
theorem ascend_of_missed (hw : w.Coherent) {fuel : Nat} {visited : List ObjectId} {h : Handle}
    (hresident : ∀ id, Walked w.met name (w.session.copyOf h).record id → ∃ g, w.At id g)
    (hmissed : climbCached w.session name fuel visited h = false) :
    ascend w.met (ownMethod name) fuel visited (w.session.copyOf h).record = .ok none := by
  induction fuel generalizing visited h with
  | zero => rfl
  | succ fuel ih =>
    simp only [climbCached] at hmissed
    rw [ascend]
    split at hmissed
    · rename_i hagain
      rw [if_pos hagain]
    · rename_i hagain
      rw [if_neg hagain]
      split at hmissed
      · cases hmissed
      · rename_i hmiss
        rw [ownMethod, OrderedDict.get?_eq_none_iff.mpr hmiss]
        dsimp only [Option.map_none]
        by_cases hsome : (w.session.copyOf h).record.parent = .nothing
        · rw [if_pos hsome]
        · rw [if_neg hsome]
          rcases hmet : w.met (w.session.copyOf h).record.parent with e | _ | c
          · -- What is resident can be met.
            obtain ⟨g, hat⟩ := hresident _ (.unread hmiss hsome hmet)
            rw [hat.met] at hmet
            cases hmet
          · rfl
          · have hid : c.record.id = (w.session.copyOf h).record.parent := met_id hw hmet
            obtain ⟨ancestor, hat⟩ := hresident _ (.next hmiss hsome hmet (.here c.record))
            rw [hid] at hat
            obtain rfl : w.session.copyOf ancestor = c := by
              rw [hat.met] at hmet
              cases hmet
              rfl
            rw [show w.session.resident.get? _ = some ancestor from hat] at hmissed
            exact ih (fun id hwalked => hresident id (.next hmiss hsome hmet hwalked)) hmissed

/-! ## The test and the lookup -/

/-- Nothing but what is in memory decides, and nothing changes. -/
theorem hasMethodCached_run (h : Handle) (name : String) (w : World) : hasMethodCached h name w =
    (climbCached w.session name (w.session.resident.length + 2) [] h, w) := rfl

theorem findMethod_run (h : Handle) (name : String) (w : World) :
    (findMethod h name).run w = (climb (ownMethod name) (reach w) [] h).run w := by
  show (resolve h (ownMethod name)).run w = _
  rw [resolve, run_get_bind]

theorem hasMethod_run {h : Handle} {found : Option (ObjectId × MethodDef)} {w' : World}
    (hfind : (findMethod h name).run w = (.ok found, w')) :
    (hasMethod h name).run w = (.ok found.isSome, w') := by
  rw [hasMethod, run_bind, hfind]
  rfl

/-- The test of a resident object comes to an end by itself, does not ask the store and changes
nothing.  As long as no object is resident under the id that stands for no parent, what it
finds a lookup finds too, in a resident copy and without loading anything, and it says what the
lookup says if all objects that the lookup comes to are resident. -/
theorem Reachable.cached_test_agrees (hw : Reachable w) {id : ObjectId} {h : Handle}
    (hat : w.At id h) (name : String) : ∃ found : Bool,
      (∀ store, hasMethodCached h name { w with store } = (found, { w with store })) ∧
      (∀ fuel, w.session.resident.length < fuel → climbCached w.session name fuel [] h = found) ∧
      (w.session.resident.get? .nothing = none →
        (found = true → w.FindsInMemory name (findMethod h name) ∧
          (hasMethod h name).run w = (.ok true, w)) ∧
        ((∀ walked, Walked w.met name (w.session.copyOf h).record walked → ∃ g, w.At walked g) →
          ∃ w', (hasMethod h name).run w = (.ok found, w') ∧ Browsed w w')) := by
  have hcoherent := hw.coherent
  have hid : (w.session.copyOf h).record.id = id := hcoherent.session.named id h hat
  have hclimbed : Climbed w.session.metInMemory [] (w.session.copyOf h).record :=
    .start (Session.metInMemory_resident (hid ▸ hat))
  have hsettled : ∀ fuel, w.session.resident.length < fuel → climbCached w.session name fuel [] h =
      climbCached w.session name (w.session.resident.length + 2) [] h := by
    intro fuel hfuel
    apply climbCached_settled hcoherent.session name hclimbed
    · exact hfuel
    · exact Nat.lt_add_of_pos_right Nat.two_pos
  have hreach : w.session.resident.length + 2 ≤ reach w := by
    rw [reach]
    omega
  refine ⟨climbCached w.session name (w.session.resident.length + 2) [] h,
    fun store => hasMethodCached_run h name { w with store }, hsettled, fun hnothing => ?_⟩
  have hfinds (hfound : climbCached w.session name (w.session.resident.length + 2) [] h = true) :
      w.FindsInMemory name (findMethod h name) := by
    obtain ⟨definer, owner, m, hrun, howner, hm⟩ :=
      climb_of_cached hcoherent hnothing (hid ▸ hat) hreach hfound
    exact ⟨definer, owner, m, (findMethod_run h name w).trans hrun, howner, hm⟩
  have hsays : w.FindsInMemory name (findMethod h name) → (hasMethod h name).run w = (.ok true, w) := by
    rintro ⟨definer, owner, m, hrun, -, -⟩
    exact hasMethod_run hrun
  refine ⟨fun hfound => ⟨hfinds hfound, hsays (hfinds hfound)⟩, fun hresident => ?_⟩
  cases hfound : climbCached w.session name (w.session.resident.length + 2) [] h with
  | true => exact ⟨w, hsays (hfinds hfound), .refl hcoherent⟩
  | false =>
    obtain ⟨w', hrun, hbrowsed⟩ := resolve_browses hcoherent h (ownMethod name)
    -- A lookup may take more steps than the test, to the same end.
    rw [← hsettled (reach w) (by omega)] at hfound
    rw [ascend_of_missed hcoherent hresident hfound] at hrun
    exact ⟨w', hasMethod_run hrun, hbrowsed⟩

/-- Of the two objects that have each other for a parent, the second has the method of the first. -/
theorem Reachable.cached_test_agrees_paired :
    paired.At ⟨1⟩ ⟨1⟩ ∧ (hasMethodCached ⟨1⟩ "greet" paired).1 = true ∧
      (hasMethod ⟨1⟩ "greet").run paired = (.ok true, paired) := by
  have hat : paired.At ⟨1⟩ ⟨1⟩ := by
    show paired.session.resident.get? ⟨1⟩ = some ⟨1⟩
    decide +kernel
  obtain ⟨found, hruns, -, hagrees⟩ := paired_reachable.cached_test_agrees hat "greet"
  have htest : hasMethodCached ⟨1⟩ "greet" paired = (found, paired) := hruns paired.store
  have hfound : (hasMethodCached ⟨1⟩ "greet" paired).1 = true := by decide +kernel
  have hnothing : paired.session.resident.get? .nothing = none := by decide +kernel
  have hsays : found = true → (hasMethod ⟨1⟩ "greet").run paired = (.ok true, paired) :=
    fun hfound => ((hagrees hnothing).1 hfound).2
  refine ⟨hat, hfound, hsays ?_⟩
  rw [htest] at hfound
  exact hfound

/-- An object that has come to be stored under the id that stands for no parent. -/
def stray : Record :=
  { Record.bare .nothing .nothing .epoch with methods := .ofList [("greet", { source := "return 1;" })] }

/-- A session that has loaded it. -/
def straying : World :=
  (Operation.load true .nothing).after
    ((openSession {}).run (initial (.memory { records := [(.nothing, stray)] }) {})).2

/-- Then an object without a parent has been created. -/
def strayed : World := (Operation.create .nothing {} {}).after straying

/-- The test takes it for the parent of that object, and the lookup does not. -/
theorem Reachable.cached_test_strays : Reachable strayed ∧ strayed.At .root ⟨1⟩ ∧
    (hasMethodCached ⟨1⟩ "greet" strayed).1 = true ∧
      ((hasMethod ⟨1⟩ "greet").run strayed).1.toOption = some false := by
  have hfaithful : (Store.memory { records := [(.nothing, stray)] }).Faithful := by
    intro e he
    obtain rfl := List.mem_singleton.mp he
    rfl
  have hloaded : Reachable straying :=
    (Reachable.start _ {} hfaithful).operate (.load true .nothing) nofun
  refine ⟨hloaded.operate (.create .nothing {} {}) nofun, ?_, ?_, ?_⟩
  · show strayed.session.resident.get? .root = some ⟨1⟩
    decide +kernel
  · decide +kernel
  · decide +kernel

end World

end Lineage
