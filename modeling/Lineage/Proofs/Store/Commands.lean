/-
  Lineage.Proofs.Store.Commands

  Sequences of operations on stores of the two kinds.

  A single operation has the same outcome on stores that agree (`Agrees.perform`), and so,
  by induction, has every sequence of operations on stores that are empty at first
  (`Store.kinds_agree`), as long as the texts of what is stored are read back.  There are
  2^63 ids to hand out.
-/
import Lineage.Proofs.Store.Agreement

namespace Lineage

-- Eight bytes are not to be computed with.
attribute [local irreducible] ObjectId.bytes

open MemoryStore (content content_missing)

/-! ## Sequences of operations -/

namespace Store

/-- What a store can be asked for. -/
inductive Command where
  | connect
  | disconnect
  | create (r : Record)
  | fetch (id : ObjectId)
  | update (id : ObjectId) (u : Update)
  | delete (id : ObjectId)
  | list (recycledToo : Bool)

/-- What it answers. -/
inductive Answer where
  | done
  | created (id : ObjectId)
  | fetched (found : Option Record)
  | deleted (was : Bool)
  | listed (records : List Record)
  | failed (e : StoreError)

/-- The ids that an answer hands out. -/
def Answer.ids : Answer → List ObjectId
  | created id => [id]
  | _ => []

/-- The answer that an outcome gives. -/
def answer {α : Type} (f : α → Answer) : Except StoreError α × Store → Answer × Store
  | (.ok a, s) => (f a, s)
  | (.error e, s) => (.failed e, s)

namespace Command

def perform (s : Store) : Command → Answer × Store
  | connect => answer (fun _ => .done) (Store.connect s)
  | disconnect => answer (fun _ => .done) (Store.disconnect s)
  | create r => answer .created (Store.create r s)
  | fetch id => answer .fetched (Store.fetch id s)
  | update id u => answer (fun _ => .done) (Store.update id u s)
  | delete id => answer .deleted (Store.delete id s)
  | list recycledToo => answer .listed (Store.list recycledToo s)

/-- What is stored by the operation can be read back. -/
def Survives : Command → Prop
  | create r => r.Survives
  | update _ u => u.Survives
  | _ => True

def isCreate : Command → Bool
  | create _ => true
  | _ => false

end Command

/-- One operation after the other. -/
def perform (s : Store) : List Command → List Answer × Store
  | [] => ([], s)
  | c :: cs =>
    let (a, s) := c.perform s
    let (rest, s) := perform s cs
    (a :: rest, s)

/-- So many ids, from a number on. -/
def idsFrom (start count : Nat) : List ObjectId :=
  (List.range' start count).map fun n => ⟨Int64.ofNat n⟩

theorem idsFrom_add (start a b : Nat) :
    idsFrom start (a + b) = idsFrom start a ++ idsFrom (start + a) b := by
  rw [idsFrom, idsFrom, idsFrom, ← List.map_append, List.range'_append_1]

theorem idsFrom_nodup {count : Nat} (h : count ≤ 2 ^ 63) : (idsFrom 0 count).Nodup := by
  refine List.pairwise_map.mpr (List.Pairwise.imp_of_mem (fun {a b} ha hb hne => ?_)
    List.nodup_range')
  have hlt {n : Nat} (hn : n ∈ List.range' 0 count) : (Int64.ofNat n).toInt = n :=
    Int64.toInt_ofNat_of_lt (by have := (List.mem_range'_1.mp hn).2; omega)
  intro heq
  apply hne
  have htoInt := congrArg (fun id : ObjectId => id.number.toInt) heq
  simp only [hlt ha, hlt hb] at htoInt
  exact Int.ofNat_inj.mp htoInt

theorem answer_ids_length {α : Type} {f : α → Answer} {count : Nat}
    (hf : ∀ a, (f a).ids.length ≤ count) (outcome : Except StoreError α × Store) :
    (answer f outcome).1.ids.length ≤ count := by
  obtain ⟨_ | a, s⟩ := outcome
  · exact Nat.zero_le _
  · exact hf a

/-- Only the creation of an object hands out an id. -/
theorem Command.ids_length (c : Command) (s : Store) :
    (c.perform s).1.ids.length ≤ if c.isCreate then 1 else 0 := by
  cases c <;> refine answer_ids_length ?_ _ <;> exact fun _ => Nat.le_refl _

end Store

open Store (Command Answer idsFrom)

namespace Agrees

variable {m : MemoryStore} {d : DurableStore} {given : Nat}

/-- An outcome that both stores come to. -/
def Same {α : Type} (m : MemoryStore) (d : DurableStore) (given : Nat)
    (onMemory : StoreOp MemoryStore α) (onDurable : StoreOp DurableStore α)
    (ids : α → List ObjectId) : Prop :=
  ∃ result m' d', onMemory m = (result, m') ∧ onDurable d = (result, d') ∧
    match result with
    | .ok a => ids a = idsFrom given (ids a).length ∧ Agrees m' d' (given + (ids a).length)
    | .error _ => Agrees m' d' given

theorem Same.of_agrees {α : Type} {onMemory : StoreOp MemoryStore α}
    {onDurable : StoreOp DurableStore α} {ids : α → List ObjectId} {result : Except StoreError α}
    {m' : MemoryStore} {d' : DurableStore} (hm : onMemory m = (result, m'))
    (hd : onDurable d = (result, d')) (h : Agrees m' d' given) (hids : ∀ a, ids a = []) :
    Same m d given onMemory onDurable ids := by
  refine ⟨result, m', d', hm, hd, ?_⟩
  cases result with
  | ok a =>
    dsimp only
    rw [hids a]
    exact ⟨rfl, h⟩
  | error e => exact h

/-- What is not connected does nothing. -/
theorem offline {α : Type} {onMemory : StoreOp MemoryStore α} {onDurable : StoreOp DurableStore α}
    {ids : α → List ObjectId} (h : Agrees m d given)
    (hmemory : m.connected = false → onMemory m = (.error .notConnected, m))
    (hdurable : d.connected = false → onDurable d = (.error .notConnected, d))
    (hsame : m.connected = true → Same m d given onMemory onDurable ids) :
    Same m d given onMemory onDurable ids := by
  by_cases hc : m.connected = true
  · exact hsame hc
  · have hc' : m.connected = false := Bool.not_eq_true _ ▸ hc
    exact ⟨_, m, d, hmemory hc', hdurable (h.connected.trans hc'), h⟩

/-- The answers are the same if the outcomes are. -/
theorem answered {α : Type} {onMemory : StoreOp MemoryStore α} {onDurable : StoreOp DurableStore α}
    {f : α → Answer} (h : Same m d given onMemory onDurable fun a => (f a).ids) :
    ∃ a m' d', Store.answer f (Store.either onMemory onDurable (.memory m)) = (a, .memory m') ∧
      Store.answer f (Store.either onMemory onDurable (.durable d)) = (a, .durable d') ∧
      a.ids = idsFrom given a.ids.length ∧ Agrees m' d' (given + a.ids.length) := by
  obtain ⟨result, m', d', hm, hd, hresult⟩ := h
  have hmemory : Store.either onMemory onDurable (.memory m) = (result, .memory m') :=
    Store.lift_eq hm
  have hdurable : Store.either onMemory onDurable (.durable d) = (result, .durable d') :=
    Store.lift_eq hd
  rw [hmemory, hdurable]
  cases result with
  | ok a => exact ⟨f a, m', d', rfl, rfl, hresult.1, hresult.2⟩
  | error e => exact ⟨.failed e, m', d', rfl, rfl, rfl, hresult⟩

/-- An operation has the same outcome on stores that agree, and they agree afterwards. -/
theorem perform (h : Agrees m d given) {c : Command} (hsurvive : c.Survives)
    (hroom : c.isCreate = true → given < 2 ^ 63) :
    ∃ a m' d', c.perform (.memory m) = (a, .memory m') ∧ c.perform (.durable d) = (a, .durable d') ∧
      a.ids = idsFrom given a.ids.length ∧ Agrees m' d' (given + a.ids.length) := by
  cases c with
  | connect =>
    have hsame : Same m d given MemoryStore.connect DurableStore.connect
        fun _ => Answer.done.ids :=
      .of_agrees rfl rfl (h.linked true) fun _ => rfl
    exact answered hsame
  | disconnect =>
    have hsame : Same m d given MemoryStore.disconnect DurableStore.disconnect
        fun _ => Answer.done.ids :=
      .of_agrees rfl rfl (h.linked false) fun _ => rfl
    exact answered hsame
  | create r =>
    refine answered (h.offline (fun hc => MemoryStore.opened_bind_offline hc _)
      (fun hc => DurableStore.opened_bind_offline hc _) fun hc => ?_)
    obtain ⟨m', d', hm, hd, hagrees⟩ := h.create hc (hroom rfl) hsurvive
    exact ⟨_, m', d', hm, hd, rfl, hagrees⟩
  | fetch id =>
    refine answered (h.offline (fun hc => MemoryStore.opened_bind_offline hc _)
      (fun hc => DurableStore.opened_bind_offline hc _) fun hc => ?_)
    exact .of_agrees (MemoryStore.fetch_run hc id) (h.fetch hc id) (h.counted _ _) fun _ => rfl
  | update id u =>
    refine answered (h.offline (fun hc => MemoryStore.opened_bind_offline hc _)
      (fun hc => DurableStore.opened_bind_offline hc _) fun hc => ?_)
    obtain ⟨result, m', d', hm, hd, hagrees⟩ := h.update hc id hsurvive
    exact .of_agrees hm hd hagrees fun _ => rfl
  | delete id =>
    refine answered (h.offline (fun hc => MemoryStore.opened_bind_offline hc _)
      (fun hc => DurableStore.opened_bind_offline hc _) fun hc => ?_)
    obtain ⟨result, m', d', hm, hd, hagrees⟩ := h.delete hc id
    exact .of_agrees hm hd hagrees fun _ => rfl
  | list recycledToo =>
    refine answered (h.offline (fun hc => MemoryStore.opened_bind_offline hc _)
      (fun hc => DurableStore.opened_bind_offline hc _) fun hc => ?_)
    exact .of_agrees (MemoryStore.list_run hc recycledToo) (h.list hc recycledToo) (h.counted _ _)
      fun _ => rfl

/-- Induction on the operations. -/
theorem performAll (h : Agrees m d given) {cs : List Command} (hsurvive : ∀ c ∈ cs, c.Survives)
    (hroom : given + cs.countP Command.isCreate ≤ 2 ^ 63) :
    ∃ answers m' d', Store.perform (.memory m) cs = (answers, .memory m') ∧
      Store.perform (.durable d) cs = (answers, .durable d') ∧
      answers.flatMap Answer.ids = idsFrom given (answers.flatMap Answer.ids).length ∧
      given + (answers.flatMap Answer.ids).length ≤ 2 ^ 63 ∧
      Agrees m' d' (given + (answers.flatMap Answer.ids).length) := by
  induction cs generalizing m d given with
  | nil => exact ⟨[], m, d, rfl, rfl, rfl, hroom, h⟩
  | cons c cs ih =>
    rw [List.countP_cons] at hroom
    obtain ⟨a, m₁, d₁, hm, hd, hids, h₁⟩ := h.perform (hsurvive c List.mem_cons_self) fun hcreate => by
      rw [if_pos hcreate] at hroom
      omega
    have hlength := c.ids_length (.memory m)
    rw [hm] at hlength
    simp only at hlength
    obtain ⟨answers, m₂, d₂, hm', hd', hids', hroom', h₂⟩ :=
      ih h₁ (fun c hc => hsurvive c (List.mem_cons_of_mem _ hc)) (by omega)
    refine ⟨a :: answers, m₂, d₂, ?_, ?_, ?_, ?_, ?_⟩
    · simp only [Store.perform, hm, hm']
    · simp only [Store.perform, hd, hd']
    · rw [List.flatMap_cons, List.length_append, Store.idsFrom_add, ← hids, ← hids']
    · rw [List.flatMap_cons, List.length_append]
      omega
    · rw [List.flatMap_cons, List.length_append, ← Nat.add_assoc]
      exact h₂

end Agrees

/-- What stands in the tables for an object are the parts of its record; nothing if it is not
stored. -/
structure DurableStore.Has (d : DurableStore) (id : ObjectId) (found : Option Record) : Prop where
  header : ∀ text, (id.bytes, text) ∈ d.objects ↔ ∃ r, found = some r ∧ headerText r = text
  properties : ∀ e, (e ∈ d.properties ∧ id.bytes <+: e.1) ↔ ∃ name v,
    ((found.map Record.properties).getD {}).get? name = some v ∧
      e = (DurableStore.entryKey id name, (Json.ofValue v).write)
  methods : ∀ e, (e ∈ d.methods ∧ id.bytes <+: e.1) ↔ ∃ name m,
    ((found.map Record.methods).getD {}).get? name = some m ∧
      e = (DurableStore.entryKey id name, (Json.ofMethod m).write)

theorem Agrees.has {m : MemoryStore} {d : DurableStore} {given : Nat} (h : Agrees m d given)
    (id : ObjectId) : d.Has id (m.records.get? id) where
  header text := by
    rw [← Dict.get?_eq_some_iff h.tableOrder, h.headers, Option.map_eq_some_iff]
  properties := h.properties.owned_iff
  methods := h.methods.owned_iff

/-- What is stored in tables belongs to objects that are stored. -/
theorem Agrees.owner {m : MemoryStore} {d : DurableStore} {given : Nat} (h : Agrees m d given)
    {e : List UInt8 × String} (he : e ∈ d.properties ∨ e ∈ d.methods) :
    ∃ id r, m.records.get? id = some r ∧ id.bytes <+: e.1 := by
  have hstored {α : Type} {part : Record → OrderedDict String α} {id : ObjectId} {name : String} {a : α}
      (ha : (content m.records part id).get? name = some a) : ∃ r, m.records.get? id = some r := by
    cases hr : m.records.get? id with
    | some r => exact ⟨r, rfl⟩
    | none =>
      rw [content_missing hr] at ha
      cases ha
  rcases he with he | he
  · obtain ⟨id, name, v, hv, rfl⟩ := h.properties.entry he
    obtain ⟨r, hr⟩ := hstored hv
    exact ⟨id, r, hr, DurableStore.prefix_entryKey_iff.mpr rfl⟩
  · obtain ⟨id, name, v, hv, rfl⟩ := h.methods.entry he
    obtain ⟨r, hr⟩ := hstored hv
    exact ⟨id, r, hr, DurableStore.prefix_entryKey_iff.mpr rfl⟩

/-- The two kinds of store are one: begun empty, they give the same answers to the same operations,
and hand out the ids 0, 1, 2 and so on, each once.  In the tables of the durable store there is for
each object what its record says; nothing of one object stands among the entries of another, and
nothing at all is left of an object that is not stored. -/
theorem Store.kinds_agree (cs : List Command) (hsurvive : ∀ c ∈ cs, c.Survives)
    (hroom : cs.countP Command.isCreate ≤ 2 ^ 63) :
    ∃ answers m d, Store.perform (.memory {}) cs = (answers, .memory m) ∧
      Store.perform (.durable {}) cs = (answers, .durable d) ∧
      answers.flatMap Answer.ids = idsFrom 0 (answers.flatMap Answer.ids).length ∧
      (answers.flatMap Answer.ids).Nodup ∧
      (∀ id, d.Has id (m.records.get? id)) ∧
      ∀ e, e ∈ d.properties ∨ e ∈ d.methods →
        ∃ id r, m.records.get? id = some r ∧ id.bytes <+: e.1 := by
  obtain ⟨answers, m, d, hm, hd, hids, hlength, hagrees⟩ :=
    Agrees.empty.performAll hsurvive (by omega)
  refine ⟨answers, m, d, hm, hd, hids, ?_, hagrees.has, fun _ he => hagrees.owner he⟩
  rw [hids]
  exact Store.idsFrom_nodup (by omega)

namespace Store

/-- An object is stored, changed and deleted, and then another one is stored. -/
def succession : List Command :=
  [.connect, .create { Record.bare .nothing .nothing .epoch with
      properties := .ofList [("name", .str "lamp")] },
    .update .root { properties := [("color", some (.str "red")), ("name", none)] },
    .delete .root, .disconnect, .connect, .create (.bare .nothing .root .epoch)]

theorem succession_survives : ∀ c ∈ succession, c.Survives := by
  intro c hc
  simp only [succession, List.mem_cons, List.not_mem_nil, or_false] at hc
  rcases hc with rfl | rfl | rfl | rfl | rfl | rfl | rfl
  · trivial
  · refine ⟨Timestamp.epoch_valid, Timestamp.epoch_valid, ?_, fun _ he => absurd he List.not_mem_nil⟩
    intro e he
    cases List.mem_singleton.mp he
    exact Value.survives_str _
  · refine ⟨fun _ h => absurd h (Option.some_ne_none _).symm, fun name v he => ?_,
      fun _ _ he => absurd he List.not_mem_nil⟩
    rcases List.mem_cons.mp he with heq | he
    · cases heq
      exact Value.survives_str _
    · cases List.mem_singleton.mp he
  · trivial
  · trivial
  · trivial
  · exact ⟨Timestamp.epoch_valid, Timestamp.epoch_valid, fun _ he => absurd he List.not_mem_nil, fun _ he => absurd he List.not_mem_nil⟩

theorem succession_forgets : (match (Store.perform (.memory {}) succession).2 with
    | .memory m => m.records.has .root
    | .durable _ => true) = false := by decide +kernel

/-- The second object gets an id of its own, and nothing is left of the first. -/
theorem kinds_agree_succession :
    ∃ answers m d, Store.perform (.memory {}) succession = (answers, .memory m) ∧
      Store.perform (.durable {}) succession = (answers, .durable d) ∧
      answers.flatMap Answer.ids = [⟨0⟩, ⟨1⟩] ∧ d.Has .root none := by
  obtain ⟨answers, m, d, hm, hd, -, -, hhas, -⟩ :=
    kinds_agree succession succession_survives (by decide)
  have hids : (Store.perform (.memory {}) succession).1.flatMap Answer.ids = [⟨0⟩, ⟨1⟩] := by
    decide +kernel
  have hgone := succession_forgets
  rw [hm] at hids hgone
  have hnone : m.records.get? .root = none := Option.not_isSome_iff_eq_none.mp (by
    rw [Bool.not_eq_true]
    exact hgone)
  exact ⟨answers, m, d, hm, hd, hids, hnone ▸ hhas .root⟩

end Store

end Lineage
