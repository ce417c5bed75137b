/-
  Lineage.Proofs.Store.Counting

  Stores of either kind, as long as it does not matter what they hold.

  A store in memory counts how often it has been read and written.  Stores that differ in
  their counts alone (`Store.Same`) write the same (`Store.Same.update`), and reading a
  record changes nothing but a count (`Store.fetch_same`).
-/
import Lineage.Proofs.Store.Outcomes

namespace Lineage.Store

def isConnected : Store → Bool
  | .memory s => s.connected
  | .durable s => s.connected

def isDurable : Store → Bool
  | .memory _ => false
  | .durable _ => true

variable {s t : Store}

/-! ## Counting -/

/-- The store as if it had never been read or written. -/
def uncounted : Store → Store
  | .memory s => .memory { s with reads := 0, writes := 0 }
  | .durable s => .durable s

/-- Stores that differ at most in how often they have been read and written. -/
def Same (s t : Store) : Prop := s.uncounted = t.uncounted

theorem Same.refl (s : Store) : Same s s := rfl

theorem Same.symm (h : Same s t) : Same t s := Eq.symm h

theorem Same.trans {r : Store} (h : Same r s) (h' : Same s t) : Same r t := Eq.trans h h'

/-- What does not depend on the counts is the same. -/
theorem Same.congr {α : Sort _} (h : Same s t) {f : Store → α} (hf : ∀ s, f s.uncounted = f s) :
    f s = f t := by
  rw [← hf s, ← hf t, show s.uncounted = t.uncounted from h]

theorem Same.isConnected (h : Same s t) : s.isConnected = t.isConnected :=
  h.congr fun s => by cases s <;> rfl

theorem Same.isDurable (h : Same s t) : s.isDurable = t.isDurable :=
  h.congr fun s => by cases s <;> rfl

/-! ## Failing and reading -/

theorem fetch_offline (hc : s.isConnected = false) (id : ObjectId) :
    fetch id s = (.error .notConnected, s) := by
  cases s with
  | memory s => exact lift_eq (MemoryStore.opened_bind_offline hc _)
  | durable s => exact lift_eq (DurableStore.opened_bind_offline hc _)

theorem update_offline (hc : s.isConnected = false) (id : ObjectId) (u : Update) :
    update id u s = (.error .notConnected, s) := by
  cases s with
  | memory s => exact lift_eq (MemoryStore.opened_bind_offline hc _)
  | durable s => exact lift_eq (DurableStore.opened_bind_offline hc _)

/-- A write that fails has written nothing. -/
theorem update_failed {id : ObjectId} {u : Update} {e : StoreError}
    (h : (update id u s).1 = .error e) : (update id u s).2 = s := by
  by_cases hc : s.isConnected = true
  · cases s with
    | memory s =>
      rw [update, either, lift_eq (MemoryStore.update_run hc id u)] at h ⊢
      cases hr : s.records.get? id with
      | none => rfl
      | some r =>
        rw [hr] at h
        cases h
    | durable s =>
      rw [update, either, lift_eq (DurableStore.update_run hc id u)] at h ⊢
      rcases hh : s.header id with e | _ | header
      · rfl
      · rfl
      · rw [hh] at h
        cases h
  · rw [update_offline (Bool.not_eq_true _ ▸ hc)]

/-- Reading a record changes nothing but a count. -/
theorem fetch_same (id : ObjectId) (s : Store) : Same (fetch id s).2 s := by
  by_cases hc : s.isConnected = true
  · cases s with
    | memory s =>
      rw [fetch, either, lift_eq (MemoryStore.fetch_run hc id)]
      rfl
    | durable s =>
      rw [fetch, either, lift_eq (DurableStore.fetch_run hc id)]
      rfl
  · rw [fetch_offline (Bool.not_eq_true _ ▸ hc)]
    exact .refl s

/-- Only the counts of memory stores can be different. -/
theorem Same.cases (h : Same s t) :
    s = t ∨ ∃ (m : MemoryStore) (reads writes : Nat),
      s = .memory m ∧ t = .memory { m with reads, writes } := by
  cases s with
  | memory m =>
    cases t with
    | memory m' =>
      obtain ⟨connected, records, nextId, reads, writes⟩ := m
      obtain ⟨connected', records', nextId', reads', writes'⟩ := m'
      cases h
      exact .inr ⟨_, reads', writes', rfl, rfl⟩
    | durable d => cases h
  | durable d =>
    cases t with
    | memory m => cases h
    | durable d' => exact .inl h

/-- Stores that differ in their counts alone write the same. -/
theorem Same.update (h : Same s t) (id : ObjectId) (u : Update) :
    (update id u s).1 = (update id u t).1 ∧ Same (update id u s).2 (update id u t).2 := by
  rcases h.cases with rfl | ⟨m, reads, writes, rfl, rfl⟩
  · exact ⟨rfl, .refl _⟩
  · by_cases hc : m.connected = true
    · have hrun := MemoryStore.update_run hc id u
      have hrun' := MemoryStore.update_run (s := { m with reads, writes }) hc id u
      dsimp only at hrun'
      rw [Store.update, either, either]
      cases hr : m.records.get? id with
      | none =>
        rw [hr] at hrun hrun'
        rw [lift_eq hrun, lift_eq hrun']
        exact ⟨rfl, rfl⟩
      | some r =>
        rw [hr] at hrun hrun'
        rw [lift_eq hrun, lift_eq hrun']
        exact ⟨rfl, rfl⟩
    · have hc' := Bool.not_eq_true _ ▸ hc
      rw [update_offline (s := .memory m) hc', update_offline (s := .memory { m with reads, writes }) hc']
      exact ⟨rfl, rfl⟩

end Lineage.Store
