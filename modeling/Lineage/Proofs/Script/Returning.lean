/-
  Lineage.Proofs.Script.Returning

  The script that returns a value in literal form returns that value.

  The code of a literal has no labels, so that nothing but its constants has to fit in 16
  bits, however long the code is.  `Lays` says what a part of the generator without labels
  does: it always succeeds, adds no constant but those listed, and none twice.
-/
import Mathlib.Data.Set.Card
import Lineage.Proofs.Dict
import Lineage.Proofs.Machine.Reachable
import Lineage.Proofs.Program.Drafting
import Lineage.Proofs.Script.Correctness
import Lineage.Proofs.Script.Literals

namespace Lineage

open Script

namespace Value

mutual

/-- The value without the messages of its errors. -/
def bare : Value → Value
  | .list items => .list (bareItems items)
  | .map entries => .map (bareEntries entries)
  | .err e => .err e.code.error
  | v => v

def bareItems : List Value → List Value
  | [] => []
  | v :: rest => bare v :: bareItems rest

def bareEntries : List (String × Value) → List (String × Value)
  | [] => []
  | (k, v) :: rest => (k, bare v) :: bareEntries rest

end

mutual

/-- The constants that the code of a literal refers to by slots: booleans, texts, keys, errors. -/
def constants : Value → List Value
  | .bool b => [.bool b]
  | .str s => [.str s]
  | .err e => [.err e.code.error]
  | .list items => itemConstants items
  | .map entries => entryConstants entries
  | _ => []

def itemConstants : List Value → List Value
  | [] => []
  | v :: rest => constants v ++ itemConstants rest

def entryConstants : List (String × Value) → List Value
  | [] => []
  | (k, v) :: rest => .str k :: (constants v ++ entryConstants rest)

end

theorem bareEntries_eq_map (entries : List (String × Value)) :
    bareEntries entries = entries.map fun e => (e.1, e.2.bare) := by
  induction entries with
  | nil => rfl
  | cons e rest ih => rw [bareEntries, ih, List.map_cons]

theorem ordered_bareEntries {entries : List (String × Value)} (h : Dict.Ordered entries) :
    Dict.Ordered (bareEntries entries) := by
  rw [bareEntries_eq_map]
  exact List.pairwise_map.mpr h

/-! ## Evaluation -/

variable {s : Scene}

theorem eval_int {n : Int64} (hn : n ≠ Int64.minValue) :
    (Value.int n).spelling.eval s = pure (.int n) := by
  rw [spelling]
  split
  · have hlo := Numeral.lt_toInt hn
    have hhi := n.toInt_lt
    have hmagnitude : (-n).toInt = -n.toInt := by
      rw [Int64.toInt_neg, Int.bmod_eq_of_le (by omega) (by omega)]
    have hneg : Value.neg (.int (-n)) = .ok (.int n) := by
      rw [Value.neg, hmagnitude, neg_neg, checkedInt, if_pos ⟨hlo.le, hhi⟩, Int64.ofInt_toInt]
    rw [Expr.eval, Expr.eval, pure_bind, hneg]
    rfl
  · rw [Expr.eval]

mutual

/-- The spelling of a value evaluates to the value, without the messages of its errors. -/
theorem eval_spelling : ∀ v : Value, v.Writable → v.spelling.eval s = pure v.bare
  | .null, _ | .bool _, _ | .str _, _ | .obj _, _ => by simp only [spelling, Expr.eval, bare]
  | .err _, _ => by simp only [spelling, Expr.eval, bare]
  | .int n, h => eval_int h
  | .float _, h => h.elim
  | .list [], _ => rfl
  | .list (v :: rest), h => by
    rw [spelling, Expr.eval, spellItems, evalArgs, eval_spelling v h.1, pure_bind,
      eval_spellItems rest h.2, pure_bind]
    rfl
  | .map entries, h => by
    have hself := (ordered_bareEntries h.1).ofList_self
    rw [Dict.ofList] at hself
    rw [spelling, Expr.eval, eval_spellEntries entries h.2, hself, bare]

theorem eval_spellItems : ∀ items : List Value, AllWritable items → ∀ done : List Value,
    evalMoreArgs s done (spellItems items) = pure (done ++ bareItems items)
  | [], _, done => by rw [spellItems, evalMoreArgs, bareItems, List.append_nil]
  | v :: rest, h, done => by
    rw [spellItems, evalMoreArgs, eval_spelling v h.1, pure_bind, eval_spellItems rest h.2,
      bareItems, List.append_assoc]
    rfl

theorem eval_spellEntries : ∀ entries : List (String × Value), EntriesWritable entries →
    ∀ d : Dict String Value, evalEntries s (.map d) (spellEntries entries) =
      pure (.map ((bareEntries entries).foldl (fun d e => Dict.put d e.1 e.2) d))
  | [], _, d => by rw [spellEntries, evalEntries, bareEntries, List.foldl_nil]
  | (k, v) :: rest, h, d => by
    rw [spellEntries, evalEntries, Expr.eval, pure_bind, eval_spelling v h.1, pure_bind]
    exact eval_spellEntries rest h.2 (Dict.put d k v.bare)

end

end Value

/-! ## Code without labels -/

namespace Draft

/-- A draft whose constants can be spelled, each held once. -/
structure Pooled (d : Draft) : Prop where
  spelled : ∀ v ∈ d.literals, Spelled v
  once : d.literals.toList.Nodup

/-- A program that begins like a draft and whose constants all have slots. -/
structure Opens (p : Program) (d : Draft) : Prop where
  ops : Initial d.ops p.ops
  literals : Initial d.literals p.literals
  slots : p.literals.size ≤ UInt16.size

/-- What a part of the generator does that makes no labels: it succeeds, the constants that it adds
are among `vs`, and `P p a i j` says what code a program has from `i` up to `j` if it came to
`a`. -/
def Lays {α : Type} (vs : List Value) (x : Drafting α) (P : Program → α → Nat → Nat → Prop) :
    Prop :=
  ∀ d, Pooled d → ∃ a d', x d = .ok (a, d') ∧ Pooled d' ∧
    (∀ v ∈ d'.literals, v ∈ d.literals ∨ v ∈ vs) ∧
    ∀ p, Opens p d' → Opens p d ∧ P p a d.ops.size d'.ops.size

namespace Lays

variable {α β : Type} {vs us : List Value} {x : Drafting α} {P : Program → α → Nat → Nat → Prop}

theorem bind {f : α → Drafting β} {Q : α → Program → β → Nat → Nat → Prop} (hx : Lays vs x P)
    (hf : ∀ a, Lays us (f a) (Q a)) :
    Lays (vs ++ us) (x >>= f) fun p b i j => ∃ a k, P p a i k ∧ Q a p b k j := by
  intro d hd
  obtain ⟨a, d₁, ha, hd₁, hnew₁, hback₁⟩ := hx d hd
  obtain ⟨b, d₂, hb, hd₂, hnew₂, hback₂⟩ := hf a d₁ hd₁
  have hrun : (x >>= f) d = .ok (b, d₂) := by
    show (x d).bind (fun r => f r.1 r.2) = _
    rw [ha]
    exact hb
  refine ⟨b, d₂, hrun, hd₂, fun v hv => ?_, fun p hp => ?_⟩
  · rcases hnew₂ v hv with h | h
    · exact (hnew₁ v h).imp_right (List.mem_append_left us)
    · exact .inr (List.mem_append_right vs h)
  · obtain ⟨hp₁, hQ⟩ := hback₂ p hp
    obtain ⟨hp₀, hP⟩ := hback₁ p hp₁
    exact ⟨hp₀, a, d₁.ops.size, hP, hQ⟩

theorem imp {Q : Program → α → Nat → Nat → Prop} (hx : Lays vs x P)
    (h : ∀ p a i j, P p a i j → Q p a i j) : Lays vs x Q := by
  intro d hd
  obtain ⟨a, d', ha, hd', hnew, hback⟩ := hx d hd
  exact ⟨a, d', ha, hd', hnew, fun p hp => ⟨(hback p hp).1, h _ _ _ _ (hback p hp).2⟩⟩

theorem nothing : Lays [] (Pure.pure () : Drafting Unit) fun _ _ i j => j = i :=
  fun d hd => ⟨(), d, rfl, hd, fun _ => .inl, fun _ hp => ⟨hp, rfl⟩⟩

/-- An instruction, with whatever else says nothing of the program. -/
theorem op {x : Drafting Unit} {op : Op} {set : Draft → Draft} (hrun : ∀ d, x d = .ok ((), set d))
    (hops : ∀ d, (set d).ops = d.ops.push op) (hliterals : ∀ d, (set d).literals = d.literals) :
    Lays [] x fun p _ i j => p.ops[i]? = some op ∧ j = i + 1 := by
  intro d hd
  refine ⟨(), set d, hrun d, ?_, ?_, fun p hp => ?_⟩
  · exact ⟨(hliterals d).symm ▸ hd.spelled, (hliterals d).symm ▸ hd.once⟩
  · exact (hliterals d).symm ▸ fun _ => .inl
  · have hstart := hops d ▸ hp.ops
    exact ⟨⟨(Initial.push _ _).trans hstart, hliterals d ▸ hp.literals, hp.slots⟩, hstart.last, by
      rw [hops, Array.size_push]⟩

end Lays

theorem emit_lays (op : Op) : Lays [] (emit op) fun p _ i j => p.ops[i]? = some op ∧ j = i + 1 :=
  .op (fun _ => rfl) (fun _ => rfl) fun _ => rfl

theorem emitPush_lays (op : Op) :
    Lays [] (emitPush op) fun p _ i j => p.ops[i]? = some op ∧ j = i + 1 :=
  .op (fun _ => rfl) (fun _ => rfl) fun _ => rfl

theorem emitTake_lays (op : Op) (n : Nat) :
    Lays [] (emitTake op n) fun p _ i j => p.ops[i]? = some op ∧ j = i + 1 :=
  .op (fun _ => rfl) (fun _ => rfl) fun _ => rfl

theorem startStatement_lays (line : Nat) : Lays [] (startStatement line) fun _ _ i j => j = i :=
  fun _ hd => ⟨(), _, rfl, { hd with }, fun _ => .inl, fun _ hp => ⟨{ hp with }, rfl⟩⟩

theorem literal_lays {v : Value} (hv : Spelled v) :
    Lays [v] (literal v) fun p l i j => p.literals[l.slot.toNat]? = some v ∧ j = i := by
  intro d hd
  cases hfind : d.literals.findIdx? (·.equals v) with
  | some n =>
    refine ⟨_, d, by rw [literal_run, hfind], hd, fun _ => .inl, fun p hp => ⟨hp, ?_, rfl⟩⟩
    obtain ⟨hn, heq, -⟩ := Array.findIdx?_eq_some_iff_getElem.mp hfind
    have hsame : d.literals[n] = v :=
      distinct_spelled _ _ (hd.spelled _ (Array.getElem_mem hn)) hv heq
    have hhere : p.literals[n]? = some v :=
      hp.literals n v (by rw [Array.getElem?_eq_getElem hn, hsame])
    have hlt := (Array.getElem?_eq_some_iff.mp hhere).1
    have hslots := hp.slots
    rwa [Label.ofNat, UInt16.toNat_ofNat_of_lt' (by omega)]
  | none =>
    refine ⟨_, _, by rw [literal_run, hfind], ⟨?_, ?_⟩, ?_, fun p hp => ?_⟩
    · intro u hu
      rcases Array.mem_push.mp hu with hu | rfl
      · exact hd.spelled u hu
      · exact hv
    · rw [Array.toList_push, List.nodup_append]
      refine ⟨hd.once, List.nodup_singleton v, ?_⟩
      rintro u hu _ (_ | ⟨_, ⟨⟩⟩) rfl
      have hother := Array.findIdx?_eq_none_iff.mp hfind u (Array.mem_toList_iff.mp hu)
      rw [Value.equals, Value.order_self] at hother
      cases hother
    · intro u hu
      exact (Array.mem_push.mp hu).imp_right List.mem_singleton.mpr
    · have hhere := hp.literals.last
      have hlt := (Array.getElem?_eq_some_iff.mp hhere).1
      have hslots := hp.slots
      refine ⟨⟨hp.ops, (Initial.push _ _).trans hp.literals, hp.slots⟩, ?_, rfl⟩
      rwa [Label.ofNat, UInt16.toNat_ofNat_of_lt' (by omega)]

/-- The code of a constant, which has a slot of its own or is all in one instruction. -/
theorem constant_lays (v : Value) (hv : Spelled v) :
    Lays v.constants (constant v) fun p _ i j => Expr.At p (.value v) i j := by
  have hslot : Lays ([v] ++ []) (literal v >>= fun l => emitPush (.pushLiteral l)) fun p _ i j =>
      Expr.At p (.value v) i j := by
    refine ((literal_lays hv).bind fun l => emitPush_lays _).imp ?_
    rintro p _ i j ⟨l, _, ⟨hl, rfl⟩, hop, rfl⟩
    exact ⟨_, hop, .literal hl, rfl⟩
  cases v with
  | null => exact (emitPush_lays _).imp fun p _ i j ⟨hop, hj⟩ => ⟨_, hop, .null, hj⟩
  | int n => exact (emitPush_lays _).imp fun p _ i j ⟨hop, hj⟩ => ⟨_, hop, .int n, hj⟩
  | float x => exact (emitPush_lays _).imp fun p _ i j ⟨hop, hj⟩ => ⟨_, hop, .float x, hj⟩
  | obj id => exact (emitPush_lays _).imp fun p _ i j ⟨hop, hj⟩ => ⟨_, hop, .obj id, hj⟩
  | bool b => exact hslot
  | str text => exact hslot
  | list items => exact hv.elim
  | map entries => exact hv.elim
  | err e =>
    obtain ⟨code, message⟩ := e
    obtain rfl : message = none := hv
    exact hslot

mutual

/-- The code of the spelling of a value, by induction on the value. -/
theorem spelling_lays : ∀ v : Value, v.Writable →
    Lays v.constants (expr v.spelling) fun p _ i j => Expr.At p v.spelling i j
  | .null, _ => constant_lays .null trivial
  | .bool b, _ => constant_lays (.bool b) trivial
  | .int n, _ => by
    rw [Value.spelling]
    split
    · refine ((constant_lays (.int (-n)) trivial).bind fun _ => emit_lays .negate).imp ?_
      rintro p _ i j ⟨_, k, hoperand, hop, hj⟩
      exact ⟨k, hoperand, hop, hj⟩
    · exact constant_lays (.int n) trivial
  | .float _, h => h.elim
  | .str text, _ => constant_lays (.str text) trivial
  | .obj id, _ => constant_lays (.obj id) trivial
  | .err e, _ => constant_lays (.err e.code.error) rfl
  | .list [], _ => emitPush_lays .pushEmptyList
  | .list (v :: rest), h => by
    refine ((spelling_lays v h.1).bind fun _ => (emit_lays .wrapList).bind fun _ =>
      spellItems_lays rest h.2).imp ?_
    rintro p _ i j ⟨_, k, hfirst, _, _, ⟨hop, rfl⟩, hrest⟩
    exact ⟨k, hfirst, hop, hrest⟩
  | .map entries, h => by
    refine ((emitPush_lays .pushEmptyMap).bind fun _ => spellEntries_lays entries h.2).imp ?_
    rintro p _ i j ⟨_, _, ⟨hop, rfl⟩, hentries⟩
    exact ⟨hop, hentries⟩

theorem spellItems_lays : ∀ items : List Value, Value.AllWritable items →
    Lays (Value.itemConstants items) (moreArguments (Value.spellItems items)) fun p _ i j =>
      MoreArgsAt p (Value.spellItems items) i j
  | [], _ => .nothing
  | v :: rest, h => by
    refine ((spelling_lays v h.1).bind fun _ => (emitTake_lays .appendItem 1).bind fun _ =>
      spellItems_lays rest h.2).imp ?_
    rintro p _ i j ⟨_, k, hfirst, _, _, ⟨hop, rfl⟩, hrest⟩
    exact ⟨k, hfirst, hop, hrest⟩

theorem spellEntries_lays : ∀ es : List (String × Value), Value.EntriesWritable es →
    Lays (Value.entryConstants es) (entries (Value.spellEntries es)) fun p _ i j =>
      EntriesAt p (Value.spellEntries es) i j
  | [], _ => .nothing
  | (k, v) :: rest, h => by
    refine ((constant_lays (.str k) trivial).bind fun _ => (spelling_lays v h.1).bind fun _ =>
      (emitTake_lays .mapInsert 2).bind fun _ => spellEntries_lays rest h.2).imp ?_
    rintro p _ i j ⟨_, m, hkey, _, n, hvalue, _, _, ⟨hop, rfl⟩, hrest⟩
    exact ⟨m, n, hkey, hvalue, hop, hrest⟩

end

/-- The statement that returns a value. -/
theorem return_lays {v : Value} (hv : v.Writable) :
    Lays v.constants (block (returnTree v).statements) fun p _ i j =>
      BlockAt p ⟨0, 0, none⟩ (returnTree v).statements i j := by
  have hstatement := (startStatement_lays 1).bind fun _ => (spelling_lays v hv).bind fun _ =>
    emitTake_lays .returnTop 1
  have hblock := hstatement.bind fun _ => Lays.nothing
  rw [List.nil_append, List.append_nil, List.append_nil] at hblock
  refine hblock.imp ?_
  rintro p _ i j ⟨_, _, ⟨_, _, rfl, _, k, hexpr, hop, rfl⟩, rfl⟩
  exact ⟨_, ⟨k, hexpr, hop, rfl⟩, rfl⟩

end Draft

theorem ncard_le_length (vs : List Value) : {u | u ∈ vs}.ncard ≤ vs.length := by
  classical
  rw [← List.coe_toFinset, Set.ncard_coe_finset]
  exact vs.toFinset_card_le

/-- There are no more constants than there are different ones to be had. -/
theorem size_le_ncard {pool : Array Value} {vs : List Value} (honce : pool.toList.Nodup)
    (hsub : ∀ u ∈ pool, u ∈ vs) : pool.size ≤ {u | u ∈ vs}.ncard := by
  classical
  have hpool : pool.size = {u | u ∈ pool.toList}.ncard := by
    rw [← List.coe_toFinset, Set.ncard_coe_finset, List.toFinset_card_of_nodup honce,
      Array.length_toList]
  rw [hpool]
  refine Set.ncard_le_ncard (fun u hu => hsub u (Array.mem_toList_iff.mp hu)) ?_
  exact List.finite_toSet vs

/-- The script that returns a value compiles, to code for that. -/
theorem compile_return {v : Value} (hv : v.Writable)
    (hslots : {u | u ∈ v.constants}.ncard ≤ UInt16.size) :
    ∃ p, Program.compile (returnScript v) true = .ok p ∧ (returnTree v).CodedBy p := by
  have hempty : Draft.Pooled {} := ⟨fun u hu => absurd hu (Array.not_mem_empty u), List.nodup_nil⟩
  obtain ⟨_, d, hrun, hd, hnew, hback⟩ := Draft.return_lays hv {} hempty
  have hsub : ∀ u ∈ d.literals, u ∈ v.constants := fun u hu =>
    (hnew u hu).resolve_left (Array.not_mem_empty u)
  have hcode := (hback (d.program .initial)
    ⟨Initial.push _ _, Initial.refl _, (size_le_ncard hd.once hsub).trans hslots⟩).2
  refine ⟨d.program .initial, ?_, rfl, ?_, d.ops.size, hcode, Initial.last (Initial.refl _)⟩
  · have hcompile : Program.compile (returnScript v) true =
        (SyntaxTree.read (returnScript v) true >>= SyntaxTree.compile) := rfl
    have htree : (returnTree v).compile = .ok (d.program .initial) := by
      rw [SyntaxTree.compile, StateT.run, hrun]
      rfl
    rw [hcompile, read_return hv]
    exact htree
  · obtain ⟨C, -, hall⟩ := SyntaxTree.sound_of_read (read_return hv)
      (show Names.initial.width ≤ UInt16.size by decide)
    exact ⟨C, hall⟩

theorem eval_return {v : Value} (hv : v.Writable) (fuel depth : Nat) (call : Activation) (env : Env)
    (w : World) : (returnTree v).eval fuel depth call env w = some (.returned v.bare, w) := by
  simp only [SyntaxTree.eval, returnTree, evalBlock, Stmt.eval, StmtNode.eval,
    Value.eval_spelling v hv, pure_bind]
  rfl

/-- The literal form of a value is a script for the value: it compiles, and every run of it ends and
returns the value, without the messages of its errors, and leaves the world as it was. -/
theorem Value.literal_returned (v : Value) (hv : v.Writable)
    (hslots : {u | u ∈ v.constants}.ncard ≤ UInt16.size) :
    ∃ p, Program.compile ("return " ++ v.literal ++ ";") true = .ok p ∧
      ∀ (this definer : ObjectId) (method : String) (context : CallContext) (args : List Value)
        (w : World), ∃ enough, ∀ fuel, enough ≤ fuel →
          Machine.run fuel ⟨.start p this definer method context args, []⟩ w =
            (some (.returned v.bare), w) := by
  obtain ⟨p, hcompile, hcoded⟩ := compile_return hv hslots
  refine ⟨p, hcompile, fun this definer method context args w => ?_⟩
  have henv := hcoded.names ▸ Machine.width_le_start p this definer method context args
  have hstarts : (Activation.start p this definer method context args).Starts p _ := rfl
  have hruns := hcoded.execute_iff hstarts henv 0 w (.returned v.bare, w)
  obtain ⟨fuel, hrun⟩ := hruns.mpr ⟨0, eval_return hv 0 0 _ _ w⟩
  obtain ⟨enough, o, hhalted, hverdict⟩ :=
    (Machine.run_iff_execute _ w w (.returned v.bare)).mpr ⟨fuel, hrun⟩
  refine ⟨enough, fun fuel hfuel => ?_⟩
  have hreturned : o = .returned v.bare := by
    cases o with
    | returned u =>
      cases hverdict
      rfl
    | raised _ | faulted => cases hverdict
  exact hreturned ▸ Machine.finish_mono (p := .running _) hhalted hfuel

/-- A value of every kind that has a literal form. -/
def Value.assorted : Value :=
  .list [.int (-7), .str "\"\n", .map [("a", .err ⟨.custom "E_ODD", none⟩)], .list [], .obj ⟨-1⟩,
    .bool true, .err ⟨.division, none⟩, .null]

/-- Its literal form is a script for it. -/
theorem Value.literal_returned_assorted : ∃ p,
    Program.compile
        "return \x7b-7, \"\\\"\\n\", [\"a\" -> E_ODD], \x7b\x7d, #-1, true, E_DIV, null\x7d;" true =
      .ok p ∧
    ∃ fuel, Machine.run fuel ⟨p.rootCall, []⟩ (World.initial (.memory {}) {}) =
      (some (.returned assorted), World.initial (.memory {}) {}) := by
  have hodd : (ErrorCode.custom "E_ODD").Spellable :=
    ⟨⟨['O', 'D', 'D'], by decide, List.all_eq_true.mp rfl, rfl⟩, by decide⟩
  have hwritable : assorted.Writable := by
    have hseven : (-7 : Int64) ≠ Int64.minValue := by decide
    exact ⟨hseven, trivial, ⟨List.pairwise_singleton _ _, hodd, trivial⟩, trivial, trivial, trivial,
      trivial, trivial, trivial⟩
  have hslots : {u | u ∈ assorted.constants}.ncard ≤ UInt16.size :=
    (ncard_le_length assorted.constants).trans (by decide)
  obtain ⟨p, hcompile, hruns⟩ := literal_returned assorted hwritable hslots
  obtain ⟨enough, hrun⟩ := hruns .root .root "" (.direct .root) [] (World.initial (.memory {}) {})
  exact ⟨p, hcompile, enough, hrun enough (Nat.le_refl enough)⟩

end Lineage
