/-
  Lineage.Proofs.Value.Order

  The order on values is a total order, and equality goes with it, at every depth.

  What two comparisons say of a third one is `Composes`.  It passes through lexicographic
  comparison, so that one induction on values, lists of values and entries shows it of the
  order; values of different kinds are compared by their kinds.

  Lists are equal element by element (`equals_list`) and maps key by key (`equals_map`);
  `order_laws` says all of it together.
-/
import Mathlib.Data.List.Forall2
import Lineage.Proofs.Dict
import Lineage.Value.Order

namespace Lineage

/-! ## Two comparisons in a row -/

/-- What the comparisons of `a` with `b` and of `b` with `c` say of that of `a` with `c`. -/
structure Composes (x y z : Ordering) : Prop where
  left : x = .eq → z = y
  right : y = .eq → z = x
  alike : x = y → z = x

theorem composes_compare {α : Type} [Ord α] [Std.TransOrd α] (a b c : α) :
    Composes (compare a b) (compare b c) (compare a c) where
  left h := Std.TransCmp.congr_left h
  right h := (Std.TransCmp.congr_right h).symm
  alike h := by
    cases hab : compare a b with
    | lt => exact Std.TransCmp.lt_trans hab (h ▸ hab)
    | eq => exact Std.TransCmp.eq_trans hab (h ▸ hab)
    | gt => exact Std.TransCmp.gt_trans hab (h ▸ hab)

namespace Composes

variable {x y z x' y' z' : Ordering}

/-- The comparison that decides first composes, and so does the next one where it does not decide. -/
theorem lex (h : Composes x y z) (h' : Composes x' y' z') :
    Composes (x.then x') (y.then y') (z.then z') := by
  obtain ⟨hleft, hright, halike⟩ := h
  cases x <;> cases y <;> simp only [forall_const, reduceCtorEq, false_implies] at hleft hright halike
  case eq.eq => subst hleft; exact h'
  -- Where the first comparison decides, the second one does not count.
  all_goals try subst hleft
  all_goals try subst hright
  all_goals try subst halike
  all_goals constructor <;> simp [eq_comm]

theorem isLE (h : Composes x y z) (hx : x.isLE) (hy : y.isLE) : z.isLE := by
  cases x with
  | lt =>
    cases y with
    | lt => rw [h.alike rfl]; rfl
    | eq => rw [h.right rfl]; rfl
    | gt => cases hy
  | eq => rw [h.left rfl]; exact hy
  | gt => cases hx

end Composes

namespace Value

/-! ## Kinds -/

theorem order_of_kind_ne {a b : Value} (h : a.kind ≠ b.kind) : order a b = compare a.kind b.kind := by
  cases a <;> cases b <;> first | rfl | exact absurd rfl h

theorem equals_kind {a b : Value} (h : a.equals b = true) : a.kind = b.kind := by
  by_contra hne
  rw [equals, order_of_kind_ne hne, beq_iff_eq] at h
  exact hne (Std.LawfulEqOrd.eq_of_compare h)

/-- The comparison by kinds decides for values that are not all of one kind. -/
theorem composes_of_kind_ne {a b c : Value} (h : ¬ (a.kind = b.kind ∧ b.kind = c.kind)) :
    Composes (order a b) (order b c) (order a c) := by
  have hdecides {a b : Value} (hne : a.kind ≠ b.kind) : order a b ≠ .eq := by
    rw [order_of_kind_ne hne]
    exact fun heq => hne (Std.LawfulEqOrd.eq_of_compare heq)
  by_cases hab : a.kind = b.kind
  · have hbc : b.kind ≠ c.kind := fun hbc => h ⟨hab, hbc⟩
    have hac : a.kind ≠ c.kind := hab ▸ hbc
    have hsame : order a c = order b c := by rw [order_of_kind_ne hac, order_of_kind_ne hbc, hab]
    exact ⟨fun _ => hsame, fun heq => absurd heq (hdecides hbc), fun heq => hsame.trans heq.symm⟩
  · by_cases hbc : b.kind = c.kind
    · have hac : a.kind ≠ c.kind := hbc ▸ hab
      have hsame : order a c = order a b := by rw [order_of_kind_ne hac, order_of_kind_ne hab, hbc]
      exact ⟨fun heq => absurd heq (hdecides hab), fun _ => hsame, fun _ => hsame⟩
    · refine ⟨fun heq => absurd heq (hdecides hab), fun heq => absurd heq (hdecides hbc), fun heq => ?_⟩
      rw [order_of_kind_ne hab, order_of_kind_ne hbc] at heq
      have hkinds := (composes_compare a.kind b.kind c.kind).alike heq
      have hac : a.kind ≠ c.kind := by
        intro hac
        rw [hac, Std.ReflOrd.compare_self] at hkinds
        exact hab (Std.LawfulEqOrd.eq_of_compare (hac ▸ hkinds.symm))
      rw [order_of_kind_ne hac, order_of_kind_ne hab, hkinds]

/-! ## The order -/

mutual

/-- Comparing the other way round gives the reverse.  Induction on the first value, as for the
comparison itself. -/
theorem order_swap (a b : Value) : order a b = (order b a).swap := by
  by_cases hkind : a.kind = b.kind
  · cases a <;> cases b <;> first | (cases hkind; done) | simp only [order]
    case null.null => rfl
    case list.list as bs => exact orderLists_swap as bs
    case map.map es fs => exact orderEntries_swap es fs
    all_goals exact Std.OrientedOrd.eq_swap
  · rw [order_of_kind_ne hkind, order_of_kind_ne (Ne.symm hkind)]
    exact Std.OrientedOrd.eq_swap

theorem orderLists_swap (as bs : List Value) : orderLists as bs = (orderLists bs as).swap := by
  cases as <;> cases bs
  case cons.cons a as b bs =>
    rw [orderLists, orderLists, Ordering.swap_then, ← order_swap a b, ← orderLists_swap as bs]
  all_goals simp only [orderLists, Ordering.swap]

theorem orderEntries_swap (es fs : List (String × Value)) :
    orderEntries es fs = (orderEntries fs es).swap := by
  cases es <;> cases fs
  case cons.cons e es f fs =>
    obtain ⟨k, a⟩ := e
    obtain ⟨l, b⟩ := f
    have hkeys : compare k l = (compare l k).swap := Std.OrientedOrd.eq_swap
    rw [orderEntries, orderEntries, Ordering.swap_then, Ordering.swap_then, ← hkeys, ← order_swap a b,
      ← orderEntries_swap es fs]
  all_goals simp only [orderEntries, Ordering.swap]

end

mutual

/-- Two comparisons in a row, at every depth. -/
theorem order_composes (a b c : Value) : Composes (order a b) (order b c) (order a c) := by
  by_cases hkinds : a.kind = b.kind ∧ b.kind = c.kind
  · obtain ⟨hab, hbc⟩ := hkinds
    cases a <;> cases b <;> first | (cases hab; done) | skip
    all_goals cases c <;> first | (cases hbc; done) | simp only [order]
    case null.null.null => exact ⟨fun h => h, fun h => h, fun h => h⟩
    case list.list.list as bs cs => exact orderLists_composes as bs cs
    case map.map.map es fs gs => exact orderEntries_composes es fs gs
    all_goals exact composes_compare _ _ _
  · exact composes_of_kind_ne hkinds
termination_by structural a

theorem orderLists_composes (as bs cs : List Value) :
    Composes (orderLists as bs) (orderLists bs cs) (orderLists as cs) := by
  cases as <;> cases bs <;> cases cs
  case cons.cons.cons a as b bs c cs =>
    simp only [orderLists]
    exact (order_composes a b c).lex (orderLists_composes as bs cs)
  all_goals constructor <;> simp [orderLists, eq_comm]
termination_by structural as

theorem orderEntries_composes (es fs gs : List (String × Value)) :
    Composes (orderEntries es fs) (orderEntries fs gs) (orderEntries es gs) := by
  cases es <;> cases fs <;> cases gs
  case cons.cons.cons e es f fs g gs =>
    obtain ⟨k, a⟩ := e
    simp only [orderEntries]
    exact (composes_compare k f.1 g.1).lex
      ((order_composes a f.2 g.2).lex (orderEntries_composes es fs gs))
  all_goals constructor <;> simp [orderEntries, eq_comm]
termination_by structural es

end

instance : Std.TransCmp order where
  eq_swap {a b} := order_swap a b
  isLE_trans {a b c} := (order_composes a b c).isLE

/-! ## Equality -/

theorem equals_iff {a b : Value} : a.equals b = true ↔ order a b = .eq := beq_iff_eq

theorem equals_equivalence : Equivalence fun a b : Value => a.equals b = true where
  refl a := equals_iff.mpr (order_self a)
  symm h := equals_iff.mpr (Std.OrientedCmp.eq_symm (equals_iff.mp h))
  trans h h' := equals_iff.mpr (Std.TransCmp.eq_trans (equals_iff.mp h) (equals_iff.mp h'))

theorem orderLists_eq_iff {as bs : List Value} :
    orderLists as bs = .eq ↔ List.Forall₂ (fun a b => a.equals b = true) as bs := by
  induction as generalizing bs with
  | nil => cases bs <;> simp [orderLists]
  | cons a as ih =>
    cases bs with
    | nil => simp [orderLists]
    | cons b bs => rw [orderLists, Ordering.then_eq_eq, List.forall₂_cons, equals_iff, ih]

theorem orderEntries_eq_iff {es fs : List (String × Value)} :
    orderEntries es fs = .eq ↔ List.Forall₂ (fun e f => e.1 = f.1 ∧ e.2.equals f.2 = true) es fs := by
  induction es generalizing fs with
  | nil => cases fs <;> simp [orderEntries]
  | cons e es ih =>
    obtain ⟨k, a⟩ := e
    cases fs with
    | nil => simp [orderEntries]
    | cons f fs =>
      obtain ⟨l, b⟩ := f
      rw [orderEntries, Ordering.then_eq_eq, Ordering.then_eq_eq, List.forall₂_cons, equals_iff, ih,
        Std.LawfulEqOrd.compare_eq_iff_eq, and_assoc]

/-- Lists are equal when they are of one length and equal at every position. -/
theorem equals_list {as bs : List Value} : (list as).equals (list bs) = true ↔
    as.length = bs.length ∧
      ∀ (i : Nat) (h : i < as.length) (h' : i < bs.length), as[i].equals bs[i] = true := by
  rw [equals_iff, order, orderLists_eq_iff, List.forall₂_iff_get]
  rfl

/-- Maps are equal when they have the same keys with equal values. -/
theorem equals_map {es fs : List (String × Value)} (hes : Dict.Ordered es) (hfs : Dict.Ordered fs) :
    (map es).equals (map fs) = true ↔
      ∀ key, Option.Rel (fun a b => a.equals b = true) (Dict.get? es key) (Dict.get? fs key) := by
  rw [equals_iff, order, orderEntries_eq_iff]
  exact ⟨fun h => Dict.rel_of_forall₂ h, hes.forall₂_of_rel hfs⟩

/-- The order is total at every depth: it is reflexive, the other way round it is the reverse, and
it is transitive.  Values are equal exactly when they compare as equal, which is an equivalence.
Lists are equal when they have the same length and equal elements, maps when they have the same
keys with equal values, errors when they have the same code, and values of different kinds never.
Two integers, texts, references or errors are related as they are ordered. -/
theorem order_laws :
    ((∀ a, order a a = .eq) ∧ (∀ a b, order a b = (order b a).swap) ∧
      (∀ a b c, (order a b).isLE → (order b c).isLE → (order a c).isLE)) ∧
    ((∀ a b : Value, a.equals b = true ↔ order a b = .eq) ∧
      Equivalence fun a b : Value => a.equals b = true) ∧
    (∀ as bs : List Value, (list as).equals (list bs) = true ↔ as.length = bs.length ∧
      ∀ (i : Nat) (h : i < as.length) (h' : i < bs.length), as[i].equals bs[i] = true) ∧
    (∀ es fs : List (String × Value), Dict.Ordered es → Dict.Ordered fs →
      ((map es).equals (map fs) = true ↔
        ∀ key, Option.Rel (fun a b => a.equals b = true) (Dict.get? es key) (Dict.get? fs key))) ∧
    (∀ e f : ScriptError, (err e).equals (err f) = true ↔ e.code = f.code) ∧
    (∀ a b : Value, a.kind ≠ b.kind → a.equals b = false) ∧
    (∀ m n : Int64, relate (.int m) (.int n) = .ok (order (.int m) (.int n))) ∧
    (∀ s t : String, relate (.str s) (.str t) = .ok (order (.str s) (.str t))) ∧
    (∀ i j : ObjectId, relate (.obj i) (.obj j) = .ok (order (.obj i) (.obj j))) ∧
    (∀ e f : ScriptError, relate (.err e) (.err f) = .ok (order (.err e) (.err f))) := by
  refine ⟨⟨order_self, order_swap, fun _ _ _ => Std.TransCmp.isLE_trans⟩,
    ⟨fun _ _ => equals_iff, equals_equivalence⟩, fun _ _ => equals_list, fun _ _ => equals_map, ?_, ?_,
    ?_, ?_, ?_, ?_⟩
  · intro e f
    rw [equals_iff, order, Std.LawfulEqOrd.compare_eq_iff_eq]
  · intro a b hkind
    exact Bool.eq_false_iff.mpr fun h => hkind (equals_kind h)
  all_goals
    intros
    simp only [relate, order]

/-- Two maps from a key to a list of one error, told apart by the message of the error alone. -/
def messaged (message? : Option String) : List (String × Value) :=
  [("why", list [err ⟨.division, message?⟩])]

/-- They are equal, as the errors are. -/
theorem order_laws_messaged :
    Dict.Ordered (messaged none) ∧ Dict.Ordered (messaged (some "again")) ∧
      (map (messaged none)).equals (map (messaged (some "again"))) = true := by
  have hordered (message? : Option String) : Dict.Ordered (messaged message?) :=
    List.pairwise_singleton _ _
  refine ⟨hordered _, hordered _, ?_⟩
  obtain ⟨-, -, hlists, hmaps, herrors, -⟩ := order_laws
  refine (hmaps _ _ (hordered _) (hordered _)).mpr (Dict.rel_of_forall₂ ?_)
  refine .cons ⟨rfl, (hlists _ _).mpr ⟨rfl, fun i h h' => ?_⟩⟩ .nil
  obtain rfl : i = 0 := Nat.lt_one_iff.mp h
  exact (herrors _ _).mpr rfl

end Value

end Lineage
