/-
  Lineage.Proofs.Machine.Dealing

  What dealing a list out depends on.

  The labels of defaults play no part in who gets what: dealing to targets without them
  gives every target the same (`distribute_erase`).  They only say where to go on, and
  that is settled by how many optional targets take a value (`deal_due`).
-/
import Lineage.Machine.Scatter

namespace Lineage

open Script (Name)

/-- An entry without the label of its default. -/
def ScatterEntry.erase : ScatterEntry → ScatterEntry
  | .optional name _ => .optional name none
  | entry => entry

/-- The variable that an entry sets. -/
def ScatterEntry.name : ScatterEntry → Name
  | .required name | .rest name | .optional name _ => name

theorem ScatterEntry.erase_name (entry : ScatterEntry) : entry.erase.name = entry.name := by
  cases entry <;> rfl

theorem ScatterTable.requiredCount_erase (t : ScatterTable) (l : Label) :
    (ScatterTable.mk (t.entries.map ScatterEntry.erase) l).requiredCount = t.requiredCount := by
  simp only [ScatterTable.requiredCount, List.countP_map]
  refine List.countP_congr fun entry _ => ?_
  cases entry <;> rfl

namespace Scatter

/-- The label of the first default that is due when `spare` optional targets take a value. -/
def due : Nat → List ScatterEntry → Option Label
  | _, [] => none
  | spare + 1, .optional _ _ :: entries => due spare entries
  | 0, .optional _ default :: entries => default <|> due 0 entries
  | spare, .required _ :: entries | spare, .rest _ :: entries => due spare entries

variable {spare restSize : Nat} {entries : List ScatterEntry} {values : List Value}

theorem bind_return_ok {x : Except ScriptError Shares} {g : Shares → Shares} {shares : Shares}
    (h : (do let rest ← x; return g rest) = Except.ok shares) : ∃ rest, x = .ok rest ∧ shares = g rest := by
  cases x with
  | error e => cases h
  | ok rest => cases h; exact ⟨rest, rfl, rfl⟩

theorem deal_erase :
    deal spare restSize (entries.map ScatterEntry.erase) values =
      (deal spare restSize entries values).map fun shares => { shares with defaultDue := none } := by
  fun_induction deal spare restSize entries values with
  | case1 => rfl
  | case2 spare name entries values ih =>
    simp only [List.map_cons, ScatterEntry.erase, deal, ih]
    cases deal spare restSize entries (values.drop restSize) <;> rfl
  | case3 spare name entries v values ih =>
    simp only [List.map_cons, ScatterEntry.erase, deal, ih]
    cases deal spare restSize entries values <;> rfl
  | case4 name default entries spare v values ih =>
    simp only [List.map_cons, ScatterEntry.erase, deal, ih]
    cases deal spare restSize entries values <;> rfl
  | case5 name default entries values ih =>
    simp only [List.map_cons, ScatterEntry.erase, deal, ih]
    cases deal 0 restSize entries values <;> rfl
  | case6 => rfl
  | case7 => rfl

theorem deal_due {shares : Shares} (h : deal spare restSize entries values = .ok shares) :
    shares.defaultDue = due spare entries := by
  fun_induction deal spare restSize entries values generalizing shares with
  | case1 => cases h; rfl
  | case2 spare name entries values ih =>
    obtain ⟨rest, hrest, rfl⟩ := bind_return_ok h
    simp only [due, ih hrest]
  | case3 spare name entries v values ih =>
    obtain ⟨rest, hrest, rfl⟩ := bind_return_ok h
    simp only [due, ih hrest]
  | case4 name default entries spare v values ih =>
    obtain ⟨rest, hrest, rfl⟩ := bind_return_ok h
    simp only [due, ih hrest]
  | case5 name default entries values ih =>
    obtain ⟨rest, hrest, rfl⟩ := bind_return_ok h
    simp only [due, ih hrest]
  | case6 => cases h
  | case7 => cases h

/-- A default that is due is that of an optional target. -/
theorem due_mem {l : Label} (h : due spare entries = some l) :
    ∃ name, ScatterEntry.optional name (some l) ∈ entries := by
  fun_induction due spare entries with
  | case1 => cases h
  | case2 spare name default entries ih =>
    obtain ⟨other, hmem⟩ := ih h
    exact ⟨other, List.mem_cons_of_mem _ hmem⟩
  | case3 name default entries ih =>
    cases default with
    | some label =>
      obtain rfl : label = l := Option.some.inj h
      exact ⟨name, List.mem_cons_self⟩
    | none =>
      obtain ⟨other, hmem⟩ := ih h
      exact ⟨other, List.mem_cons_of_mem _ hmem⟩
  | case4 spare name entries ih =>
    obtain ⟨other, hmem⟩ := ih h
    exact ⟨other, List.mem_cons_of_mem _ hmem⟩
  | case5 spare name entries ih =>
    obtain ⟨other, hmem⟩ := ih h
    exact ⟨other, List.mem_cons_of_mem _ hmem⟩

/-- Only the variables of the targets are set. -/
theorem deal_names {shares : Shares} (h : deal spare restSize entries values = .ok shares) :
    ∀ share ∈ shares.bound, ∃ entry ∈ entries, entry.name = share.1 := by
  have cons (entry : ScatterEntry) {entries : List ScatterEntry} {shares : Shares} {v : Value}
      (ih : ∀ share ∈ shares.bound, ∃ entry ∈ entries, entry.name = share.1) :
      ∀ share ∈ (entry.name, v) :: shares.bound, ∃ other ∈ entry :: entries, other.name = share.1 := by
    intro share hshare
    rcases List.mem_cons.mp hshare with rfl | hmem
    · exact ⟨entry, List.mem_cons_self, rfl⟩
    · obtain ⟨other, hother, hname⟩ := ih share hmem
      exact ⟨other, List.mem_cons_of_mem _ hother, hname⟩
  fun_induction deal spare restSize entries values generalizing shares with
  | case1 => cases h; intro share hshare; cases hshare
  | case2 spare name entries values ih =>
    obtain ⟨rest, hrest, rfl⟩ := bind_return_ok h
    exact cons (.rest name) (ih hrest)
  | case3 spare name entries v values ih =>
    obtain ⟨rest, hrest, rfl⟩ := bind_return_ok h
    exact cons (.required name) (ih hrest)
  | case4 name default entries spare v values ih =>
    obtain ⟨rest, hrest, rfl⟩ := bind_return_ok h
    exact cons (.optional name default) (ih hrest)
  | case5 name default entries values ih =>
    obtain ⟨rest, hrest, rfl⟩ := bind_return_ok h
    intro share hshare
    obtain ⟨other, hother, hname⟩ := ih hrest share hshare
    exact ⟨other, List.mem_cons_of_mem _ hother, hname⟩
  | case6 => cases h
  | case7 => cases h

/-! ## Whole tables -/

variable {t : ScatterTable}

/-- Dealing to targets whose defaults have no labels. -/
theorem distribute_erase (l : Label) :
    distribute ⟨t.entries.map ScatterEntry.erase, l⟩ values =
      (distribute t values).map fun shares => { shares with defaultDue := none } := by
  have hreq := t.requiredCount_erase l
  have hrest : (ScatterTable.mk (t.entries.map ScatterEntry.erase) l).hasRest = t.hasRest := by
    simp only [ScatterTable.hasRest, List.any_map]
    refine List.any_congr rfl fun entry => ?_
    cases entry <;> rfl
  simp only [distribute, hreq, hrest, List.length_map]
  split
  · rfl
  · exact deal_erase

theorem distribute_ok {shares : Shares} (h : distribute t values = .ok shares) :
    ∃ restSize, deal (values.length - t.requiredCount) restSize t.entries values = .ok shares := by
  simp only [distribute] at h
  split at h
  · cases h
  · exact ⟨_, h⟩

end Scatter

end Lineage
