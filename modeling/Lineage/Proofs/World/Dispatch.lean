/-
  Lineage.Proofs.World.Dispatch

  What a call runs.

  A lookup goes along the chain from the copy that a handle names, while a method is
  compiled from what its owner is met as.  The two agree on every definition that was found
  on an ancestor or on a resident copy, and then a call runs just what the lookup finds
  (`World.Reachable.call_runs_found`).  They need not agree on the own methods of a copy
  that is no longer resident: what runs then is what the object owns now
  (`World.Reachable.call_misses_outdated`).
-/
import Lineage.Proofs.World.Invocations
import Lineage.Proofs.World.Lookups
import Lineage.Proofs.World.Ascent

namespace Lineage

-- Nothing here depends on what the compiler makes of a source, or on how a run goes.
attribute [local irreducible] Program.compile Machine.run

namespace World

variable {w : World}

/-- The method that an object owns, as loading the object shows it. -/
def owned (w : World) (definer : ObjectId) (name : String) : Except StoreError (Option MethodDef) :=
  (w.met definer).map fun found => found.bind fun c => c.record.methods.get? name

/-- A definition of a method is run on an object, if its source compiles. -/
def execute (fuel : Nat) (id definer : ObjectId) (name : String) (context : CallContext)
    (args : List Value) (m : MethodDef) : Action (Option Value) := do
  match Program.compile m.source (← get).session.runtime.customErrors with
  | .error e => throw (.methodFailed id name (.compile e))
  | .ok p => (Activation.start p id definer name context args).finish fuel

/-- It is never said of a definition that is run that it was not found. -/
theorem execute_found (fuel : Nat) (id definer : ObjectId) (name : String) (context : CallContext)
    (args : List Value) (m : MethodDef) (w : World) (this : ObjectId) (method : String) :
    ((execute fuel id definer name context args m).run w).1 ≠
      .error (.methodNotFound this method) := by
  intro h
  rw [execute, run_get_bind] at h
  split at h
  · cases h
  · obtain ⟨x, -, hx⟩ := Invocation.finish_error (Prod.ext h rfl)
    cases hx

/-- What runs is what the owner has under the name. -/
theorem runMethod_browses (hw : w.Coherent) (fuel : Nat) (id definer : ObjectId) (name : String)
    (context : CallContext) (args : List Value) : ∃ w', Browsed w w' ∧
      (runMethod fuel id definer name context args).run w = match w.owned definer name with
        | .error e => (.error (.persistence e), w')
        | .ok none => (.error (.methodNotFound definer name), w')
        | .ok (some m) => (execute fuel id definer name context args m).run w' := by
  obtain ⟨w', hcompiled, hbrowsed⟩ := compiledMethod_browses hw definer name
  have hruntime : w'.session.runtime = w.session.runtime := congrArg View.runtime hbrowsed.view
  refine ⟨w', hbrowsed, ?_⟩
  rw [runMethod, run_bind, run_tryCatch, hcompiled, View.compiled, owned]
  dsimp only
  rcases w.met definer with e | _ | c
  · rfl
  · rfl
  · dsimp only [Except.map, Option.bind]
    cases c.record.methods.get? name with
    | none => rfl
    | some m =>
      dsimp only
      rw [execute, run_get_bind, hruntime, show w.view.runtime = w.session.runtime from rfl]
      cases Program.compile m.source w.session.runtime.customErrors with
      | error e => rfl
      | ok p => rfl

/-- A definition that is found is what its owner has, unless it was found on a copy that is not
resident. -/
theorem findMethod_owned (hw : w.Coherent) {h : Handle} {name : String} {definer : ObjectId}
    {m : MethodDef} {w₁ : World} (hfind : (findMethod h name).run w = (.ok (some (definer, m)), w₁))
    (hcurrent : w.At (w.session.copyOf h).record.id h ∨ definer ≠ (w.session.copyOf h).record.id) :
    w.owned definer name = .ok (some m) := by
  obtain ⟨chain, cut, hchain⟩ := has_chain hw (w.session.copyOf h).record
  obtain ⟨w', hrun, -⟩ := resolve_along hw hchain fun r => (r.methods.get? name).map (r.id, ·)
  have hfound := congrArg Prod.fst (hfind.symm.trans hrun)
  unfold along at hfound
  split at hfound
  · rename_i found hfirst
    cases hfound
    obtain ⟨r, hr, hm⟩ := List.exists_of_findSome?_eq_some hfirst
    obtain ⟨m, hm, heq⟩ := Option.map_eq_some_iff.mp hm
    cases heq
    -- A definition on the copy itself is the object's own as long as the copy is resident.
    have hmet : ∃ c, w.met r.id = .ok (some c) ∧ c.record = r := by
      rcases hchain.loaded (met_named hw) hr with rfl | hmet
      · rcases hcurrent with hat | hne
        · exact ⟨_, hat.met, rfl⟩
        · exact absurd rfl hne
      · exact hmet
    obtain ⟨c, hmet, rfl⟩ := hmet
    rw [owned, hmet]
    exact congrArg Except.ok hm
  · cases cut <;> cases hfound

/-- A call goes by what the lookup comes to. -/
theorem call_run (fuel : Nat) (h : Handle) (name : String) (args : List Value)
    (found : Except RuntimeError (Option (ObjectId × MethodDef))) (w₁ : World) :
    (findMethod h name).run w = (found, w₁) → (call fuel h name args).run w =
      match found with
      | .error e => (.error e, w₁)
      | .ok none => (.error (.methodNotFound (w.session.copyOf h).record.id name), w₁)
      | .ok (some (definer, _)) => (runMethod fuel (w.session.copyOf h).record.id definer name
        (.direct (w.session.copyOf h).record.id) args).run w₁ := by
  intro hfind
  have hrecord : recordOf h w = ((w.session.copyOf h).record, w) := rfl
  rw [call, run_lift_bind, hrecord]
  dsimp only
  rw [run_bind, hfind]
  rcases found with e | _ | ⟨definer, m⟩ <;> rfl

/-- A call looks the method up first.  If nothing is found it says so, and otherwise it runs what
the owner has under the name.  That is what was found, except where a copy that is not resident
was asked for a method of its own. -/
theorem Reachable.call_runs_found {w : World} (hw : Reachable w) (fuel : Nat) (h : Handle)
    (name : String) (args : List Value) :
    let id := (w.session.copyOf h).record.id
    ∃ found w₁, (findMethod h name).run w = (found, w₁) ∧ Browsed w w₁ ∧
      match found with
      | .error e => (call fuel h name args).run w = (.error e, w₁)
      | .ok none => (call fuel h name args).run w = (.error (.methodNotFound id name), w₁)
      | .ok (some (definer, m)) => ∃ w₂, Browsed w₁ w₂ ∧
        (w.At id h ∨ definer ≠ id →
          (call fuel h name args).run w =
            (execute fuel id definer name (.direct id) args m).run w₂ ∧
          ∀ this method, ((call fuel h name args).run w).1 ≠ .error (.methodNotFound this method)) ∧
        (call fuel h name args).run w = match w.owned definer name with
          | .error e => (.error (.persistence e), w₂)
          | .ok none => (.error (.methodNotFound definer name), w₂)
          | .ok (some current) =>
            (execute fuel id definer name (.direct id) args current).run w₂ := by
  intro id
  obtain ⟨chain, cut, hchain⟩ := has_chain hw.coherent (w.session.copyOf h).record
  obtain ⟨w₁, hfind, hbrowsed⟩ := resolve_along hw.coherent hchain fun r =>
    (r.methods.get? name).map (r.id, ·)
  have hfind : (findMethod h name).run w = _ := hfind
  refine ⟨_, w₁, hfind, hbrowsed, ?_⟩
  generalize (along _ chain cut).mapError RuntimeError.persistence = found at hfind
  have hcall := call_run fuel h name args found w₁ hfind
  rcases found with e | _ | ⟨definer, m⟩
  · exact hcall
  · exact hcall
  · obtain ⟨w₂, hbrowsed₂, hrun⟩ :=
      runMethod_browses hbrowsed.coherent fuel id definer name (.direct id) args
    -- Looking the method up has not changed what its owner is met as.
    rw [owned, hbrowsed.met] at hrun
    refine ⟨w₂, hbrowsed₂, fun hcurrent => ?_, hcall.trans hrun⟩
    have howned := findMethod_owned hw.coherent hfind hcurrent
    rw [owned] at howned
    rw [howned] at hrun
    refine ⟨hcall.trans hrun, fun this method => ?_⟩
    rw [hcall.trans hrun]
    exact execute_found fuel id definer name _ args m w₂ this method

/-- The method of a parent that is called through its child runs, and returns what it says. -/
theorem Reachable.call_runs_found_paired :
    Reachable paired ∧ ∃ m w₁ w₂, (findMethod ⟨1⟩ "greet").run paired = (.ok (some (⟨0⟩, m)), w₁) ∧
      m.source = "return 1;" ∧ (call 9 ⟨1⟩ "greet" []).run paired =
        (execute 9 ⟨1⟩ ⟨0⟩ "greet" (.direct ⟨1⟩) [] m).run w₂ := by
  have hfound : (findMethod ⟨1⟩ "greet").run paired =
      (.ok (some (⟨0⟩, { source := "return 1;" })), paired) := rfl
  obtain ⟨found, w₁, hfind, -, hcall⟩ :=
    paired_reachable.call_runs_found 9 ⟨1⟩ "greet" []
  cases hfound.symm.trans hfind
  obtain ⟨w₂, -, hsame, -⟩ := hcall
  have hid : (paired.session.copyOf ⟨1⟩).record.id = ⟨1⟩ := rfl
  rw [hid] at hsame
  exact ⟨paired_reachable, _, _, w₂, hfind, rfl, (hsame (.inr (by decide))).1⟩

/-- An object that has left memory has been given a method through the handle that was kept. -/
def outdated : World :=
  (Operation.setMethod ⟨0⟩ "greet" { source := "return 1;" }).after
    ((Operation.invalidate ⟨0⟩).after ((Operation.create .nothing {} {}).after
      ((openSession {}).run (initial (.memory {}) {})).2))

/-- The lookup finds that method, and the call does not. -/
theorem Reachable.call_misses_outdated :
    Reachable outdated ∧
      (∃ m w₁, (findMethod ⟨0⟩ "greet").run outdated = (.ok (some (⟨0⟩, m)), w₁)) ∧
      ∃ w₂, (call 9 ⟨0⟩ "greet" []).run outdated = (.error (.methodNotFound ⟨0⟩ "greet"), w₂) := by
  have hcreated := (Reachable.start (.memory {}) {} Store.Faithful.memory_nil).operate
    (.create .nothing {} {}) nofun
  have hset := (hcreated.operate (.invalidate ⟨0⟩) nofun).operate
    (.setMethod ⟨0⟩ "greet" { source := "return 1;" }) fun h hh => by
      cases hh
      show 0 < _
      decide +kernel
  exact ⟨hset, ⟨_, _, rfl⟩, _, rfl⟩

end World

end Lineage
