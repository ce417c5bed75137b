/-
  Lineage.Proofs.World.Legibility

  What becomes of a store in which an illegible value was written.

  A store that nobody else edits fails to give an object, or a listing, on account of
  illegible property values and of nothing else (`Leads.unreadable_iff`).  Scripts can make
  such values: a text that says infinity is converted to a float, as it is in a source.
-/
import Lineage.Builtin.Values
import Lineage.Proofs.Store.Legibility
import Lineage.Proofs.World.Moves

namespace Lineage

-- Nothing here depends on what the compiler makes of a source, or on how a run goes.
attribute [local irreducible] Program.compile Machine.run

/-- A script that converts a text gets a value that cannot be read once it is written. -/
theorem Builtin.toFloat_illegible : ∃ v, toFloat (.str "inf") = .ok v ∧ ¬v.Legible := by
  refine ⟨.float .infinity, rfl, fun hlegible => ?_⟩
  have hfloats : (Value.float .infinity).FiniteRead := fun x hx hfinite => by
    cases hx
    cases hfinite
  have hfinite := ((Value.legible_iff hfloats).mp hlegible).1 .infinity (.self _)
  cases hfinite

namespace World

/-- Once the waiting writes are applied, an object that is stored cannot be read if one of its
properties is illegible, and a listing fails if it would show such an object.  Nothing else that
happens makes either fail. -/
theorem Leads.unreadable_iff {s : Store} (hs : s = .memory {} ∨ s = .durable {})
    (runtime : RuntimeSettings) {n : Nat} {w : World}
    (hrun : Leads (fun _ _ => True) n ((openSession runtime).run (initial s runtime)).2 w)
    (hnumbers : n < 2 ^ 63) (hopen : w.drained.isConnected = true) :
    (∀ id e, (Store.fetch id w.drained).1 = .error e ↔
      w.drained.Blotted id ∧ e = DurableStore.illegible id) ∧
    ∀ recycledToo, (∃ e, (Store.list recycledToo w.drained).1 = .error e) ↔
      ∃ id, w.drained.Blotted id ∧ (w.drained.Recycled id → recycledToo = true) := by
  have hstart := Numbered.coherent_initial hs runtime
  have hc := (openSession_guards runtime).world hstart
  have hw : w.Numbered 0 ∧ w.Own := by
    rw [← Nat.zero_add n] at hnumbers
    exact own_upheld.leads (hrun.mono fun op w _ => op.permitted_any w) hc
      (own_upheld.reopened hstart ⟨.start hs hnumbers runtime, .start hs runtime⟩ runtime)
  have hown := hw.2.drained (hrun.coherent hc)
  have hordered := (Own.tended.settled (hrun.coherent hc) hw).1.store.ordered
  refine ⟨fun id e => ?_, fun recycledToo => ?_⟩
  · rw [Store.fetch_read hopen]
    exact Store.read_error_iff hown id e
  · refine (Store.list_error_iff hown hordered hopen recycledToo).trans ⟨?_, ?_⟩
    · rintro ⟨id, p, hplace, hblot, hlisted⟩
      refine ⟨id, hblot, fun ⟨q, hq, hrecycled⟩ => hlisted ?_⟩
      rw [hplace] at hq
      cases hq
      exact hrecycled
    · rintro ⟨id, hblot, hlisted⟩
      obtain ⟨p, hplace⟩ := hblot.stored
      exact ⟨id, p, hplace, hblot, fun hrecycled => hlisted ⟨p, hplace, hrecycled⟩⟩

/-- A session of a durable store in which an object has been created with lists that nest too deep. -/
def overfilled : World :=
  (Operation.create .nothing (.ofList [("deep", Json.nested 63)]) {}).after
    ((openSession {}).run (initial (.durable {}) {})).2

/-- An object that its creation made illegible. -/
theorem Leads.unreadable_iff_overfilled :
    (∀ e, (Store.fetch ⟨0⟩ overfilled.drained).1 = .error e ↔ e = DurableStore.illegible ⟨0⟩) ∧
      ∃ e, (Store.list false overfilled.drained).1 = .error e := by
  have hcreated : Leads (fun _ _ => True) 1 ((openSession {}).run (initial (.durable {}) {})).2 overfilled :=
    (Leads.refl _).next (.operate (.create .nothing (.ofList [("deep", Json.nested 63)]) {})) ⟨nofun, trivial⟩
  obtain ⟨hfetch, hlist⟩ := unreadable_iff (.inr rfl) {} hcreated (by decide) rfl
  have hplace : overfilled.drained.place ⟨0⟩ = some ⟨.nothing, false⟩ :=
    (Store.place_create (s := .durable { connected := true }) rfl rfl (r :=
      { Record.bare .nothing .nothing .epoch with properties := .ofList [("deep", Json.nested 63)] })
      Timestamp.epoch_valid Timestamp.epoch_valid ⟨0⟩).trans (if_pos rfl)
  have hblot : overfilled.drained.Blotted ⟨0⟩ :=
    ⟨hplace ▸ nofun, "deep", Json.nested 63, List.mem_singleton.mpr rfl, fun hlegible => by
      have hlevels := ((Value.legible_iff (Json.nested_floatsRead 63).finiteRead).mp hlegible).2
      rw [Json.levels_nested] at hlevels
      exact absurd hlevels (by decide)⟩
  exact ⟨fun e => (hfetch ⟨0⟩ e).trans (and_iff_right hblot), (hlist false).mpr ⟨⟨0⟩, hblot, fun ⟨p, hp, hrecycled⟩ => by
    rw [hplace] at hp
    cases hp
    cases hrecycled⟩⟩

end World

end Lineage
