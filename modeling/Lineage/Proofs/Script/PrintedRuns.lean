/-
  Lineage.Proofs.Script.PrintedRuns

  Runs of operators and operands in printed scripts.

  While a script is read its table of names grows, so what a part is read as is said as a
  function of the table, and holds for every table that starts with the one that the part
  leaves (`Resolves`).  A run that was printed with parentheses where the strengths ask for
  them is read as the expression that was printed, whatever operators stand around it, as
  long as these are weak enough (`Binds`).

  `Runs` says how a run is taken, token by token, and `Segment` that some tokens can stand at
  the front of a run and are then read as one operand of the operators around them.
-/
import Lineage.Proofs.Script.Checking
import Lineage.Proofs.Script.Lexemes

namespace Lineage.Script

/-! ## Slots in a table -/

namespace Names

/-- The slot that a name has in the table. -/
def slot (ns : Names) (name : String) : Name := (ns.find? name).getD ⟨0⟩

/-- Every name in the table is one of `V`, and no name is in it twice. -/
structure Within (V : Finset String) (ns : Names) : Prop where
  distinct : ns.texts.toList.Nodup
  known : ∀ text ∈ ns.texts, text ∈ V

theorem slot_of_find? {ns : Names} {name : String} {n : Name} (h : ns.find? name = some n) :
    ns.slot name = n := by
  rw [slot, h]
  rfl

theorem Within.intern {V : Finset String} {ns : Names} {name : String} (h : ns.Within V)
    (hname : fold name ∈ V) : (ns.intern name).2.Within V := by
  refine ⟨intern_distinct h.distinct, fun text htext => ?_⟩
  rcases mem_intern htext with htext | rfl
  · exact h.known text htext
  · exact hname

/-- A table is no wider than there are names for it. -/
theorem Within.width_le {V : Finset String} {ns : Names} (h : ns.Within V) : ns.width ≤ V.card := by
  rw [width, ← Array.length_toList, ← List.toFinset_card_of_nodup h.distinct]
  apply Finset.card_le_card
  intro text htext
  exact h.known text (Array.mem_toList_iff.mp (List.mem_toFinset.mp htext))

end Names

/-! ## What a part is read as -/

section

variable {V : Finset String} {customErrors : Bool} {α β γ : Type}

/-- The part can be read, and what it is read as depends on the table of names alone. -/
def Resolves (V : Finset String) (customErrors : Bool) (x : Reading α) (y : Names → α) : Prop :=
  ∀ scope : Scope, scope.customErrors = customErrors → scope.names.Within V →
    ∃ a names, x scope = .ok (a, { scope with names }) ∧ scope.names.Precedes names ∧
      names.Within V ∧ ∀ table, names.Precedes table → a = y table

namespace Resolves

variable {x : Reading α} {y : Names → α}

theorem pure (a : α) : Resolves V customErrors (pure a) fun _ => a :=
  fun scope _ hscope => ⟨a, scope.names, rfl, .refl _, hscope, fun _ _ => rfl⟩

/-- What is read as the same in every scope, without a look at the names. -/
theorem const {a : α} (h : ∀ scope : Scope, scope.customErrors = customErrors → x scope = .ok (a, scope)) :
    Resolves V customErrors x fun _ => a :=
  fun scope hcustom hscope => ⟨a, scope.names, h scope hcustom, .refl _, hscope, fun _ _ => rfl⟩

/-- What is read in two steps, the second of which depends on what was read in the first. -/
theorem bind_of {f : α → Reading β} {z : α → Names → β} (hx : Resolves V customErrors x y)
    (hf : ∀ table, Resolves V customErrors (f (y table)) (z (y table))) :
    Resolves V customErrors (x >>= f) fun table => z (y table) table := by
  intro scope hcustom hscope
  obtain ⟨a, names, hrun, hgrow, hwithin, ha⟩ := hx scope hcustom hscope
  have hnext := hf names
  rw [← ha names (.refl _)] at hnext
  obtain ⟨b, names', hrun', hgrow', hwithin', hb⟩ := hnext { scope with names } hcustom hwithin
  refine ⟨b, names', ?_, hgrow.trans hgrow', hwithin', fun table htable => ?_⟩
  · rw [reading_bind hrun, hrun']
  · dsimp only
    rw [hb table htable, ← ha table (hgrow'.trans htable)]

theorem bind {f : α → Reading β} {z : α → Names → β} (hx : Resolves V customErrors x y)
    (hf : ∀ a, Resolves V customErrors (f a) (z a)) :
    Resolves V customErrors (x >>= f) fun table => z (y table) table :=
  hx.bind_of fun table => hf (y table)

theorem map {f : α → β} (hx : Resolves V customErrors x y) :
    Resolves V customErrors (do return f (← x)) fun table => f (y table) :=
  hx.bind fun a => .pure (f a)

theorem map₂ {x' : Reading β} {y' : Names → β} {f : α → β → γ} (hx : Resolves V customErrors x y)
    (hx' : Resolves V customErrors x' y') :
    Resolves V customErrors (do return f (← x) (← x')) fun table => f (y table) (y' table) :=
  hx.bind fun a => hx'.bind fun b => .pure (f a b)

/-- A postfix operator and its base. -/
theorem attach {base : Reading Expr} {apply : Reading (Expr → Expr)} {e : Names → Expr}
    {f : Names → Expr → Expr} (hbase : Resolves V customErrors base e)
    (happly : Resolves V customErrors apply f) :
    Resolves V customErrors (.attach base apply) fun table => f table (e table) := by
  intro scope hcustom hscope
  obtain ⟨a, names, hrun, hgrow, hwithin, ha⟩ := hbase scope hcustom hscope
  obtain ⟨b, names', hrun', hgrow', hwithin', hb⟩ := happly { scope with names } hcustom hwithin
  refine ⟨b a, names', ?_, hgrow.trans hgrow', hwithin', fun table htable => ?_⟩
  · simp only [Reading.attach, hrun, hrun']
    rfl
  · dsimp only
    rw [hb table htable, ← ha table (hgrow'.trans htable)]

end Resolves

theorem slotOf_resolves {name : String} (h : Names.fold name ∈ V) :
    Resolves V customErrors (slotOf name) fun table => table.slot name := by
  intro scope _ hscope
  obtain ⟨hgrow, hfind⟩ := scope.names.intern_spec name
  exact ⟨_, _, rfl, hgrow, hscope.intern h, fun table htable =>
    (Names.slot_of_find? (Names.find?_mono htable hfind)).symm⟩

/-! ## Reading a run back -/

/-- How strong the operator is that comes next. -/
def grip : List Piece → Nat
  | .between strength _ _ :: _ | .after strength _ :: _ => strength
  | _ => 0

/-- Nothing is attached that is not stronger than the bound. -/
theorem extend_of_grip_le {bound fuel : Nat} {left : Reading Expr} {rest : List Piece}
    (h : grip rest ≤ bound) : extend fuel bound left rest = (left, rest) := by
  unfold extend
  split
  · exact if_neg (Nat.not_lt.mpr h)
  · exact if_neg (Nat.not_lt.mpr h)
  · rfl

/-- The run is read as an expression inside every bound below `level`, if what follows it is no
stronger than `reach`.  Each piece takes two steps at most, one to read it and one to look behind
it. -/
def Binds (V : Finset String) (customErrors : Bool) (level reach : Nat) (e : Names → Expr)
    (run : List Piece) : Prop :=
  ∃ left, Resolves V customErrors left e ∧ ∀ bound rest fuel, bound < level → grip rest ≤ reach →
    2 * (run.length + rest.length) + 1 ≤ fuel →
      ∃ fuel', 2 * rest.length ≤ fuel' ∧ climb fuel bound (run ++ rest) = extend fuel' bound left rest

namespace Binds

variable {level level' reach reach' : Nat} {e e₁ e₂ : Names → Expr} {run run₁ run₂ : List Piece}

theorem weaken (h : Binds V customErrors level reach e run) (hlevel : level' ≤ level)
    (hreach : reach' ≤ reach) : Binds V customErrors level' reach' e run := by
  obtain ⟨left, hleft, hclimb⟩ := h
  exact ⟨left, hleft, fun bound rest fuel hbound hgrip =>
    hclimb bound rest fuel (Nat.lt_of_lt_of_le hbound hlevel) (Nat.le_trans hgrip hreach)⟩

theorem operand {read : Reading Expr} (h : Resolves V customErrors read e) :
    Binds V customErrors level reach e [.operand read] := by
  refine ⟨read, h, fun bound rest fuel _ _ hfuel => ?_⟩
  rw [List.length_singleton] at hfuel
  obtain ⟨fuel, rfl⟩ := Nat.exists_eq_add_of_le' (show 1 ≤ fuel by omega)
  refine ⟨fuel, by omega, ?_⟩
  rw [List.singleton_append, climb]

/-- A prefix operator takes what is at least as strong. -/
theorem before {strength : Nat} {apply : Expr → Reading Expr} {f : Expr → Names → Expr}
    (hstrength : 0 < strength) (happly : ∀ a, Resolves V customErrors (apply a) (f a))
    (h : Binds V customErrors strength (strength - 1) e run) :
    Binds V customErrors level (strength - 1) (fun table => f (e table) table)
      (.before strength apply :: run) := by
  obtain ⟨left, hleft, hclimb⟩ := h
  refine ⟨_, hleft.bind happly, fun bound rest fuel _ hgrip hfuel => ?_⟩
  rw [List.length_cons] at hfuel
  obtain ⟨fuel, rfl⟩ := Nat.exists_eq_add_of_le' (show 1 ≤ fuel by omega)
  -- Inside the bound of the operator nothing behind the run is strong enough to be taken.
  obtain ⟨fuel', -, hinner⟩ := hclimb (strength - 1) rest fuel (by omega) hgrip (by omega)
  rw [extend_of_grip_le hgrip] at hinner
  refine ⟨fuel, by omega, ?_⟩
  rw [List.cons_append, climb, hinner]

/-- A postfix operator takes what is at least as strong. -/
theorem after {strength : Nat} {apply : Reading (Expr → Expr)} {f : Names → Expr → Expr}
    (happly : Resolves V customErrors apply f) (h : Binds V customErrors strength strength e run) :
    Binds V customErrors strength reach (fun table => f table (e table))
      (run ++ [.after strength apply]) := by
  obtain ⟨left, hleft, hclimb⟩ := h
  refine ⟨_, hleft.attach happly, fun bound rest fuel hbound _ hfuel => ?_⟩
  rw [List.length_append, List.length_singleton] at hfuel
  obtain ⟨fuel', hfuel', hrun⟩ := hclimb bound (.after strength apply :: rest) fuel hbound
    (Nat.le_refl _) (by rw [List.length_cons]; omega)
  rw [List.length_cons] at hfuel'
  obtain ⟨fuel', rfl⟩ := Nat.exists_eq_add_of_le' (show 1 ≤ fuel' by omega)
  refine ⟨fuel', by omega, ?_⟩
  rw [List.append_assoc, List.singleton_append, hrun, extend, if_pos hbound]

/-- An infix operator takes two runs, one of which has to be stronger. -/
theorem between {strength : Nat} {groupsRight : Bool} {combine : Expr → Expr → Expr}
    (hlevel : strength ≤ level) (hreach : strength ≤ reach)
    (hlevel' : (if groupsRight then strength - 1 else strength) < level')
    (h₁ : Binds V customErrors level reach e₁ run₁)
    (h₂ : Binds V customErrors level' (if groupsRight then strength - 1 else strength) e₂ run₂) :
    Binds V customErrors strength (if groupsRight then strength - 1 else strength)
      (fun table => combine (e₁ table) (e₂ table))
      (run₁ ++ .between strength groupsRight combine :: run₂) := by
  obtain ⟨left, hleft, hclimb₁⟩ := h₁
  obtain ⟨right, hright, hclimb₂⟩ := h₂
  refine ⟨_, hleft.map₂ hright, fun bound rest fuel hbound hgrip hfuel => ?_⟩
  rw [List.length_append, List.length_cons] at hfuel
  -- The first run is read up to the operator, which is taken, and then the second one, behind which
  -- nothing is.
  obtain ⟨fuel₁, hfuel₁, hrun₁⟩ := hclimb₁ bound
    (.between strength groupsRight combine :: (run₂ ++ rest)) fuel (by omega) hreach
    (by rw [List.length_cons, List.length_append]; omega)
  rw [List.length_cons, List.length_append] at hfuel₁
  obtain ⟨fuel₁, rfl⟩ := Nat.exists_eq_add_of_le' (show 1 ≤ fuel₁ by omega)
  obtain ⟨fuel₂, -, hrun₂⟩ := hclimb₂ _ rest fuel₁ hlevel' hgrip (by omega)
  rw [extend_of_grip_le hgrip] at hrun₂
  refine ⟨fuel₁, by omega, ?_⟩
  rw [List.append_assoc, List.cons_append, hrun₁, extend, if_pos hbound, hrun₂]

/-- A whole run. -/
theorem readAll (h : Binds V customErrors level reach e run) (hlevel : 0 < level) :
    Resolves V customErrors (Piece.readAll run) e := by
  obtain ⟨left, hleft, hclimb⟩ := h
  obtain ⟨fuel, -, hrun⟩ := hclimb 0 [] (2 * run.length + 2) hlevel (Nat.zero_le _) (by simp)
  rw [List.append_nil, extend_of_grip_le (show grip [] ≤ 0 from Nat.le_refl _)] at hrun
  rw [Piece.readAll, hrun]
  exact hleft

end Binds

end

open Grammar Rules

/-! ## Taking a run -/

section

variable {a b d m : List String} {P Q R : List (Tree Rule) → Prop}

/-- How a run is taken.  The flag says that an operand is still to come. -/
inductive Runs : Bool → List String → List String → (List (Tree Rule) → Prop) → Prop
  | stop {b : List String} {R : List (Tree Rule) → Prop} (hpost : Refuses (oneOf postfixOps) b)
      (hin : Refuses (oneOf infixOps) b) (himp : R []) : Runs false b b R
  | after {b m d : List String} {P Q R : List (Tree Rule) → Prop}
      (h : Eats (oneOf postfixOps) b m P) (hmore : Runs false m d Q)
      (himp : ∀ us vs, P us → Q vs → R (us ++ vs)) : Runs false b d R
  | between {b m d : List String} {P Q R : List (Tree Rule) → Prop}
      (hpost : Refuses (oneOf postfixOps) b) (h : Eats (oneOf infixOps) b m P)
      (hmore : Runs true m d Q) (himp : ∀ us vs, P us → Q vs → R (us ++ vs)) : Runs false b d R
  | before {a m d : List String} {P Q R : List (Tree Rule) → Prop}
      (h : Eats (oneOf prefixOps) a m P) (hmore : Runs true m d Q)
      (himp : ∀ us vs, P us → Q vs → R (us ++ vs)) : Runs true a d R
  | operand {a m d : List String} {P Q R : List (Tree Rule) → Prop}
      (hpre : Refuses (oneOf prefixOps) a) (h : Eats (oneOf primaries) a m P)
      (hmore : Runs false m d Q) (himp : ∀ us vs, P us → Q vs → R (us ++ vs)) : Runs true a d R

theorem Runs.imp {awaits : Bool} (h : Runs awaits a d R) {R' : List (Tree Rule) → Prop}
    (hR : ∀ ts, R ts → R' ts) : Runs awaits a d R' := by
  cases h with
  | stop hpost hin himp => exact .stop hpost hin (hR _ himp)
  | after h hmore himp => exact .after h hmore fun us vs hus hvs => hR _ (himp us vs hus hvs)
  | between hpost h hmore himp =>
    exact .between hpost h hmore fun us vs hus hvs => hR _ (himp us vs hus hvs)
  | before h hmore himp => exact .before h hmore fun us vs hus hvs => hR _ (himp us vs hus hvs)
  | operand hpre h hmore himp =>
    exact .operand hpre h hmore fun us vs hus hvs => hR _ (himp us vs hus hvs)

/-- An infix operator and the operand behind it. -/
abbrev nextOperand : Pattern Rule := .all [oneOf infixOps, Rules.operand]

/-- What is left of a run behind the first part of an operand. -/
def Continues (a d : List String) (R : List (Tree Rule) → Prop) : Prop :=
  ∃ m P Q, Loops (oneOf postfixOps) a m P ∧ Loops nextOperand m d Q ∧
    ∀ us vs, P us → Q vs → R (us ++ vs)

/-- A whole run. -/
def Starts (a d : List String) (R : List (Tree Rule) → Prop) : Prop :=
  ∃ k m P Q S, Loops (oneOf prefixOps) a k P ∧ Eats (oneOf primaries) k m Q ∧ Continues m d S ∧
    ∀ us vs ws, P us → Q vs → S ws → R (us ++ (vs ++ ws))

/-- A run is taken by the repetitions of which an expression is made, by induction on its parts. -/
theorem Runs.sound {awaits : Bool} (h : Runs awaits a d R) :
    (awaits = false → Continues a d R) ∧ (awaits = true → Starts a d R) := by
  induction h with
  | stop hpost hin himp =>
    refine ⟨fun _ => ⟨_, _, _, .stop hpost, .stop hin.seq, ?_⟩, fun h => absurd h (by decide)⟩
    rintro _ _ rfl rfl
    exact himp
  | after h _ himp ih =>
    refine ⟨fun _ => ?_, fun h => absurd h (by decide)⟩
    obtain ⟨m, P, Q, hpostfixes, hmore, hjoin⟩ := ih.1 rfl
    refine ⟨m, _, Q, .more h hpostfixes, hmore, ?_⟩
    rintro _ ws ⟨us, vs, rfl, hus, hvs⟩ hws
    rw [List.append_assoc]
    exact himp us _ hus (hjoin vs ws hvs hws)
  | between hpost h _ himp ih =>
    refine ⟨fun _ => ?_, fun h => absurd h (by decide)⟩
    obtain ⟨k, m, P, Q, S, hprefixes, hprimary, ⟨m', P', Q', hpostfixes, hmore, hjoin'⟩, hjoin⟩ :=
      ih.2 rfl
    refine ⟨_, _, _, .stop hpost,
      .more (h.seq ((Eats.star hprefixes).seq (hprimary.seq (.star hpostfixes)))) hmore, ?_⟩
    rintro _ _ rfl ⟨_, xs, rfl, ⟨us, _, rfl, hus, vs, _, rfl, hvs, ws, ws', rfl, hws, hws'⟩, hxs⟩
    have hrun := himp us _ hus (hjoin vs ws _ hvs hws (hjoin' ws' xs hws' hxs))
    simpa only [List.append_assoc, List.nil_append] using hrun
  | before h _ himp ih =>
    refine ⟨fun h => absurd h (by decide), fun _ => ?_⟩
    obtain ⟨k, m, P, Q, S, hprefixes, hprimary, hmore, hjoin⟩ := ih.2 rfl
    refine ⟨k, m, _, Q, S, .more h hprefixes, hprimary, hmore, ?_⟩
    rintro _ ws xs ⟨us, vs, rfl, hus, hvs⟩ hws hxs
    rw [List.append_assoc]
    exact himp us _ hus (hjoin vs ws xs hvs hws hxs)
  | operand hpre h _ himp ih =>
    refine ⟨fun h => absurd h (by decide), fun _ => ⟨_, _, _, _, _, .stop hpre, h, ih.1 rfl, ?_⟩⟩
    rintro _ us vs rfl hus hvs
    exact himp us vs hus hvs

/-- A run is an expression. -/
theorem Runs.expr (h : Runs true a d R) : Eats Rules.expr a d (Rooted .expr R) := by
  obtain ⟨k, m, P, Q, S, hprefixes, hprimary, ⟨m', P', Q', hpostfixes, hmore, hjoin'⟩, hjoin⟩ :=
    h.sound.2 rfl
  refine .rule rfl ((Eats.seq ((Eats.star hprefixes).seq (hprimary.seq (.star hpostfixes)))
    (.star hmore)).imp ?_)
  rintro _ ⟨_, xs, rfl, ⟨us, _, rfl, hus, vs, ws, rfl, hvs, hws⟩, hxs⟩
  have hrun := hjoin us vs _ hus hvs (hjoin' ws xs hws hxs)
  simpa only [List.append_assoc] using hrun

end

/-! ## Segments -/

section

variable {V : Finset String} {customErrors : Bool} {level level' reach reach' : Nat}
  {e e₁ e₂ : Names → Expr} {t : String} {front front₁ front₂ back b : List String}

/-- The tokens can stand at the front of a run, and are read as one expression.  The run goes on
behind them, since an operand does not tell by itself whether an operator takes it. -/
def Segment (V : Finset String) (customErrors : Bool) (level reach : Nat) (e : Names → Expr)
    (front b : List String) : Prop :=
  ∀ d R, Runs false b d R → Runs true (front ++ b) d fun ts =>
    ∃ run vs, pieces ts = run ++ pieces vs ∧ Binds V customErrors level reach e run ∧ R vs

/-- The tree of an operand. -/
def IsOperand (V : Finset String) (customErrors : Bool) (e : Names → Expr) (ts : List (Tree Rule)) :
    Prop :=
  ∃ t read, ts = [t] ∧ piece t = .operand read ∧ Resolves V customErrors read e

/-- The tree of a postfix operator. -/
def IsPostfix (V : Finset String) (customErrors : Bool) (strength : Nat) (f : Names → Expr → Expr)
    (ts : List (Tree Rule)) : Prop :=
  ∃ t apply, ts = [t] ∧ piece t = .after strength apply ∧ Resolves V customErrors apply f

/-- The tree of a prefix operator. -/
def IsPrefix (V : Finset String) (customErrors : Bool) (strength : Nat) (f : Expr → Names → Expr)
    (ts : List (Tree Rule)) : Prop :=
  ∃ t apply, ts = [t] ∧ piece t = .before strength apply ∧ ∀ a, Resolves V customErrors (apply a) (f a)

/-- The tree of an infix operator. -/
def IsInfix (strength : Nat) (groupsRight : Bool) (combine : Expr → Expr → Expr)
    (ts : List (Tree Rule)) : Prop :=
  ∃ t, ts = [t] ∧ piece t = .between strength groupsRight combine

/-- The tree of an expression. -/
def IsExpr (V : Finset String) (customErrors : Bool) (e : Names → Expr) (ts : List (Tree Rule)) : Prop :=
  ∃ t, ts = [t] ∧ Resolves V customErrors (readExpr t) e

namespace Segment

theorem weaken (h : Segment V customErrors level reach e front b) (hlevel : level' ≤ level)
    (hreach : reach' ≤ reach) : Segment V customErrors level' reach' e front b := by
  intro d R hR
  refine (h d R hR).imp ?_
  rintro ts ⟨run, vs, hrun, hbinds, hvs⟩
  exact ⟨run, vs, hrun, hbinds.weaken hlevel hreach, hvs⟩

/-- An operand by itself. -/
theorem operand (hpre : Refuses (oneOf prefixOps) (front ++ b))
    (h : Eats (oneOf primaries) (front ++ b) b (IsOperand V customErrors e)) :
    Segment V customErrors level reach e front b := by
  intro d R hR
  refine .operand hpre h hR ?_
  rintro _ vs ⟨t, read, rfl, hpiece, hread⟩ hvs
  exact ⟨[.operand read], vs, by rw [List.singleton_append, pieces, hpiece]; rfl, .operand hread, hvs⟩

/-- A base and a postfix operator. -/
theorem attach {strength : Nat} {f : Names → Expr → Expr}
    (hbase : Segment V customErrors strength strength e front (back ++ b))
    (h : Eats (oneOf postfixOps) (back ++ b) b (IsPostfix V customErrors strength f)) :
    Segment V customErrors strength reach (fun table => f table (e table)) (front ++ back) b := by
  intro d R hR
  -- From its end on the run is put together backwards, first the operator and then its base.
  have hback := Runs.after h hR (R := fun ts => ∃ apply vs,
    pieces ts = .after strength apply :: pieces vs ∧ Resolves V customErrors apply f ∧ R vs) <| by
      rintro _ vs ⟨t, apply, rfl, hpiece, happly⟩ hvs
      exact ⟨apply, vs, by rw [List.singleton_append, pieces, hpiece], happly, hvs⟩
  rw [List.append_assoc]
  refine (hbase d _ hback).imp ?_
  rintro ts ⟨run, us, hrun, hbinds, apply, vs, hpieces, happly, hvs⟩
  refine ⟨run ++ [.after strength apply], vs, ?_, hbinds.after happly, hvs⟩
  rw [hrun, hpieces, List.append_assoc]
  rfl

/-- A prefix operator and its operand. -/
theorem sign {strength : Nat} {f : Expr → Names → Expr} (hstrength : 0 < strength)
    (h : Eats (oneOf prefixOps) (front ++ (back ++ b)) (back ++ b) (IsPrefix V customErrors strength f))
    (hoperand : Segment V customErrors strength (strength - 1) e back b) :
    Segment V customErrors level (strength - 1) (fun table => f (e table) table) (front ++ back) b := by
  intro d R hR
  rw [List.append_assoc]
  refine .before h (hoperand d R hR) ?_
  rintro _ us ⟨t, apply, rfl, hpiece, happly⟩ ⟨run, vs, hrun, hbinds, hvs⟩
  refine ⟨.before strength apply :: run, vs, ?_, hbinds.before hstrength happly, hvs⟩
  rw [List.singleton_append, pieces, hpiece, hrun]
  rfl

/-- Two operands and the infix operator between them. -/
theorem join {strength : Nat} {groupsRight : Bool} {combine : Expr → Expr → Expr}
    (hlevel : strength ≤ level) (hreach : strength ≤ reach)
    (hlevel' : (if groupsRight then strength - 1 else strength) < level')
    (hleft : Segment V customErrors level reach e₁ front₁ (t :: (front₂ ++ b)))
    (hpost : Refuses (oneOf postfixOps) (t :: (front₂ ++ b)))
    (h : Eats (oneOf infixOps) (t :: (front₂ ++ b)) (front₂ ++ b) (IsInfix strength groupsRight combine))
    (hright : Segment V customErrors level' (if groupsRight then strength - 1 else strength) e₂ front₂ b) :
    Segment V customErrors strength (if groupsRight then strength - 1 else strength)
      (fun table => combine (e₁ table) (e₂ table)) (front₁ ++ t :: front₂) b := by
  intro d R hR
  have hback := Runs.between hpost h (hright d R hR) (R := fun ts => ∃ run vs,
    pieces ts = .between strength groupsRight combine :: run ++ pieces vs ∧
      Binds V customErrors level' (if groupsRight then strength - 1 else strength) e₂ run ∧ R vs) <| by
    rintro _ us ⟨t, rfl, hpiece⟩ ⟨run, vs, hrun, hbinds, hvs⟩
    exact ⟨run, vs, by rw [List.singleton_append, pieces, hpiece, hrun]; rfl, hbinds, hvs⟩
  rw [List.append_assoc]
  refine (hleft d _ hback).imp ?_
  rintro ts ⟨run₁, us, hrun₁, hbinds₁, run₂, vs, hrun₂, hbinds₂, hvs⟩
  refine ⟨_, vs, ?_, hbinds₁.between hlevel hreach hlevel' hbinds₂, hvs⟩
  rw [hrun₁, hrun₂, List.append_assoc]

/-- A whole expression. -/
theorem expr (h : Segment V customErrors level reach e front b) (hlevel : 0 < level)
    (hpost : Refuses (oneOf postfixOps) b) (hin : Refuses (oneOf infixOps) b) :
    Eats Rules.expr (front ++ b) b (IsExpr V customErrors e) := by
  refine (h b _ (.stop hpost hin rfl)).expr.imp ?_
  rintro _ ⟨line, column, text, us, rfl, run, _, hrun, hbinds, rfl⟩
  refine ⟨_, rfl, ?_⟩
  rw [readExpr, hrun, pieces, List.append_nil]
  exact hbinds.readAll hlevel

end Segment

/-! ## Operands of one token -/

theorem readAtom_ident (h : Names.fold t ∈ V) :
    Resolves V customErrors (readAtom .ident t) fun table => .var (table.slot t) :=
  (slotOf_resolves h).map

/-- A constant is an operand unless arguments follow. -/
theorem literal_operand {v : Value} (hv : IsLiteral customErrors v) (hb : Refuses (lit "(") b)
    {c : Cursor} (hc : Ahead (v.literal :: b) c) : ∃ kind, Operand kind c v.literal.toList ∧
      ∀ scope : Scope, scope.customErrors = customErrors →
        readAtom kind (String.ofList v.literal.toList) scope = .ok (.value v, scope) := by
  have ⟨_, tail, hrest, htail, _⟩ := hc
  cases v with
  | null => exact ⟨.nullValue, null_operand hrest htail.delimited, fun _ _ => rfl⟩
  | bool b => exact ⟨.boolean, bool_operand b hrest htail.delimited, fun scope _ => readAtom_boolean b scope⟩
  | int n =>
    have hread := Numeral.read_write n
    rw [Value.literal, Numeral.write_of_nonneg hv] at hrest ⊢
    rw [Numeral.write_of_nonneg hv] at hread
    exact ⟨.integer, digits_operand hrest htail.delimited, fun scope _ => readAtom_integer hread scope⟩
  | str text =>
    rw [Value.literal, Value.quoted, String.toList_ofList] at hrest ⊢
    exact ⟨.string, quoted_operand _ hrest, fun scope _ => readAtom_string text scope⟩
  | obj id => exact ⟨.object, obj_operand id hrest htail.delimited, fun scope _ => readAtom_object id scope⟩
  | err e =>
    obtain ⟨hmessage, hcode, hcustom⟩ := hv
    have he : e = e.code.error := by
      obtain ⟨code, message⟩ := e
      obtain rfl : message = none := hmessage
      rfl
    have hcall := call_fails (isIdentifier_of_spellable hcode) (.rule rfl hb.seq) c hc
    refine ⟨.errorCode, err_operand hcode hrest htail.delimited hcall, fun scope hscope => ?_⟩
    rw [show Value.err e = .err e.code.error from congrArg Value.err he]
    exact readAtom_errorCode hcode fun h => hscope.trans (hcustom h)
  | float | list | map => exact hv.elim

theorem Segment.literal {v : Value} (hv : IsLiteral customErrors v) (hb : Refuses (lit "(") b) :
    Segment V customErrors level reach (fun _ => .value v) [v.literal] b := by
  refine .operand (fun c hc => ?_) fun c hc => ?_
  · obtain ⟨kind, h, -⟩ := literal_operand hv hb hc
    obtain ⟨ch, hch, hhead⟩ := h.starts
    exact prefix_fails hch hhead
  · obtain ⟨kind, h, hread⟩ := literal_operand hv hb hc
    obtain ⟨-, _, _, _, c', hskip, hc'⟩ := hc
    exact ⟨_, c', _, h.takes, hskip, hc', _, _, rfl, rfl, .const hread⟩

/-- A variable is an operand unless arguments follow. -/
theorem Segment.var (ht : isVariable t = true) (hV : Names.fold t ∈ V) (hb : Refuses (lit "(") b) :
    Segment V customErrors level reach (fun table => .var (table.slot t)) [t] b := by
  have hident := isIdentifier_of_isVariable ht
  obtain ⟨hword, hothers⟩ := isIdentifier_iff.mp hident
  have hcode : isCodeName t = false := by
    rw [isVariable, Bool.and_eq_true, Bool.not_eq_true'] at ht
    exact ht.2
  -- Neither brackets nor a call are there, nor any constant: of atoms only identifiers are left.
  have hbrackets : ∀ q ∈ [Rule.parenExpr, .list, .map, .sysprop], Refuses (.rule q) (t :: b) :=
    .each_at_word hword 8 (by decide)
  have hprimary : ∀ q ∈ primaries.take 5, Refuses (.rule q) (t :: b) := by
    intro q hq
    by_cases hcall : q = .builtinCall
    · exact hcall ▸ call_fails hident (.rule rfl hb.seq)
    · have hother : ∀ q ∈ primaries.take 5, q ≠ .builtinCall →
          q ∈ [Rule.parenExpr, .list, .map, .sysprop] := by decide
      exact hbrackets q (hother q hq hcall)
  have hkinds : ∀ q ∈ kinds.take 7, Refuses (.rule q) (t :: b) := by
    intro q hq
    rcases List.mem_append.mp (show q ∈ kinds.take 4 ++ [.errorCode, .boolean, .nullValue] from hq)
      with hq | hq
    · exact Refuses.each_at_word hword 8 (by decide) q hq
    · simp only [List.mem_cons, List.not_mem_nil, or_false] at hq
      rcases hq with rfl | rfl | rfl
      · exact errorCode_fails hword hcode
      · rintro c ⟨-, tail, hrest, htail, -⟩
        exact word_rule_fails ["true", "false"] rfl hword (hothers.of_keywords (by decide))
          hrest htail.delimited
      · rintro c ⟨-, tail, hrest, htail, -⟩
        exact word_rule_fails ["null"] rfl hword (hothers.of_keywords (by decide))
          hrest htail.delimited
  refine .operand (.at_word hword 12 (by decide)) ?_
  have hatom : Eats (.rule .atom) (t :: b) b (Rooted .atom (Spelt .ident t)) :=
    .rule rfl (.one 7 rfl hkinds (.ident hident))
  refine (Eats.one 5 rfl hprimary hatom).imp ?_
  rintro _ ⟨line, column, text, _, rfl, line', column', rfl⟩
  refine ⟨_, _, rfl, rfl, ?_⟩
  rw [String.ofList_toList]
  exact readAtom_ident hV

/-! ## Operators -/

/-- The tree of an infix operator says how it combines its operands. -/
theorem infix_piece {strength : Nat} {groupsRight : Bool} {combine : Expr → Expr → Expr} (i : Nat) {r : Rule}
    (h : infixTokens[i]? = some (t, r))
    (hr : ∀ line column text, piece (.node r line column text []) = .between strength groupsRight combine) :
    Eats (oneOf infixOps) (t :: b) b (IsInfix strength groupsRight combine) := by
  refine (infix_eats i h).imp ?_
  rintro _ ⟨line, column, text, _, rfl, rfl⟩
  exact ⟨_, rfl, hr line column text⟩

theorem binary_eats (op : BinaryOp) :
    Eats (oneOf infixOps) (op.symbol :: b) b (IsInfix op.strength op.groupsRight (.binary op)) := by
  cases op with
  | eq => exact infix_piece 2 rfl fun _ _ _ => rfl
  | ne => exact infix_piece 3 rfl fun _ _ _ => rfl
  | le => exact infix_piece 4 rfl fun _ _ _ => rfl
  | ge => exact infix_piece 5 rfl fun _ _ _ => rfl
  | lt => exact infix_piece 6 rfl fun _ _ _ => rfl
  | gt => exact infix_piece 7 rfl fun _ _ _ => rfl
  | mem => exact infix_piece 8 rfl fun _ _ _ => rfl
  | add => exact infix_piece 9 rfl fun _ _ _ => rfl
  | sub => exact infix_piece 10 rfl fun _ _ _ => rfl
  | mul => exact infix_piece 11 rfl fun _ _ _ => rfl
  | div => exact infix_piece 12 rfl fun _ _ _ => rfl
  | mod => exact infix_piece 13 rfl fun _ _ _ => rfl
  | exp => exact infix_piece 14 rfl fun _ _ _ => rfl

theorem unary_eats (op : UnaryOp) : Eats (oneOf prefixOps) (op.symbol :: b) b
    (IsPrefix V customErrors Strength.sign fun e _ => .unary op e) := by
  have hsign {r : Rule} (hr : ∀ line column text, piece (.node r line column text []) =
      .before Strength.sign fun e => return .unary op e) :
      ∀ ts, Rooted r Bare ts → IsPrefix V customErrors Strength.sign (fun e _ => .unary op e) ts := by
    rintro _ ⟨line, column, text, _, rfl, rfl⟩
    exact ⟨_, _, rfl, hr line column text, fun a => .pure _⟩
  cases op with
  | neg => exact (Eats.one 0 rfl nofun (.mark rfl)).imp (hsign fun _ _ _ => rfl)
  | not =>
    refine (Eats.one 1 rfl ?_ (.mark rfl)).imp (hsign fun _ _ _ => rfl)
    rintro q hq
    rw [List.mem_singleton.mp hq]
    exact .of_declines 4 (by decide)

end

end Lineage.Script
