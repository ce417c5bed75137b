/-
  Lineage.Proofs.Script.LoopSimulation

  The code of loops does what their evaluation does.

  How control leaves a statement decides where the code goes on and what of the stack
  and the scopes is still there (`Leaves`).  The loops over lists and numbers go by
  induction on what is left to go over, and `while` loops on the fuel: each round takes
  at least one instruction, so a run with less fuel than there are rounds does not end.
-/
import Lineage.Proofs.Script.ExprSimulation

namespace Lineage.Script

/-- A call is at a place of its program, whatever handlers it may have prepared. -/
def Standing (p : Program) (i : Nat) (stack : List Value) (scopes : List Lineage.Scope) :
    Whereabouts :=
  fun env w c => ∃ catches, Here p i stack scopes catches env w c

/-- Where a call is when control has left a statement that ends at `j`. -/
def Leaves (p : Program) (site : Site) (j : Nat) (stack : List Value) (scopes : List Lineage.Scope) :
    Flow → Whereabouts
  | .next => Standing p j stack scopes
  | .break => fun env w c => ∃ loop, site.loop = some loop ∧
      Standing p loop.breakAt (Frame.cut loop.breakHeight stack)
        (scopes.drop (scopes.length - loop.scopes)) env w c
  | .continue => fun env w c => ∃ loop, site.loop = some loop ∧
      Standing p loop.continueAt (Frame.cut loop.continueHeight stack)
        (scopes.drop (scopes.length - loop.scopes)) env w c
  | .return v => fun _ w c => c = .ended (.returned v) w

/-- The stack and the scopes are as the site of a statement has them. -/
structure Suits (site : Site) (stack : List Value) (scopes : List Lineage.Scope) : Prop where
  height : stack.length = site.height
  scopes : scopes.length = site.scopes
  loop : ∀ loop, site.loop = some loop → loop.continueHeight ≤ site.height ∧
    loop.breakHeight ≤ site.height ∧ loop.scopes ≤ site.scopes

section

variable {s : Scene} {p : Program} {site : Site} {below stack : List Value}
  {scopes : List Lineage.Scope} {n : Nat}

theorem Sim.standing {α : Type} {x : Eval α} {i : Nat} {post : α → Whereabouts}
    (h : ∀ catches, Sim s p below scopes n (Here p i stack scopes catches) x post) :
    Sim s p below scopes n (Standing p i stack scopes) x post := by
  rintro env w c henv ⟨catches, hc⟩
  exact h catches env w c henv hc

theorem Goes.standing {i j : Nat} {op : Op} {stack' : List Value} (hop : p.ops[i]? = some op)
    (h : ∀ catches kept env, (frame p (i + 1) stack scopes catches kept env).perform op =
      .next (frame p j stack' scopes catches kept env)) :
    Goes s p (Standing p i stack scopes) (Standing p j stack' scopes) := by
  rintro env w c - ⟨catches, kept, rfl⟩
  exact ⟨_, .next ((frame_step hop).trans (h catches kept env)), catches, kept, rfl⟩

theorem Goes.jump {i j : Nat} {l : Label} (hop : p.ops[i]? = some (.jump l))
    (ht : p.target l = some j) : Goes s p (Standing p i stack scopes) (Standing p j stack scopes) :=
  .standing hop fun _ _ _ => Frame.jump_target ht

theorem cut_length (values stack : List Value) : Frame.cut stack.length (values ++ stack) = stack := by
  simp [Frame.cut]

theorem cut_self {height : Nat} {stack : List Value} (h : stack.length ≤ height) :
    Frame.cut height stack = stack := by
  rw [Frame.cut, Nat.sub_eq_zero_of_le h, List.drop_zero]

theorem drop_scopes {scopes : List Lineage.Scope} {k : Nat} (h : scopes.length = k) :
    scopes.drop (scopes.length - k) = scopes := by
  rw [h, Nat.sub_self, List.drop_zero]

theorem Suits.inLoop (h : Suits site stack scopes) (values : List Value) (top finish : Nat) :
    Suits (site.inLoop values.length top finish) (values ++ stack) scopes where
  height := by
    simp only [Site.inLoop, List.length_append, h.height]
    omega
  scopes := h.scopes
  loop loop hloop := by
    cases hloop
    simp only [Site.inLoop]
    omega

/-- A body that falls through or ends by `continue` comes back to the head of its loop, with nothing
above the values of the loop. -/
theorem back_gets (values : List Value) (hsite : Suits site stack scopes) {top m j : Nat}
    {l : Label} (hjump : p.ops[m]? = some (.jump l)) (ht : p.target l = some top) {flow : Flow}
    (hflow : flow = .next ∨ flow = .continue) :
    Gets s p (Leaves p (site.inLoop values.length top j) m (values ++ stack) scopes flow)
      (Standing p top (values ++ stack) scopes) := by
  rcases hflow with rfl | rfl
  · exact (Goes.jump hjump ht).gets
  · refine .of_imp ?_
    rintro env w c ⟨loop, hloop, hc⟩
    cases hloop
    -- The values of the loop stay on the stack, and nothing is above them.
    have hheight : (values ++ stack).length ≤ site.height + values.length := by
      rw [List.length_append, hsite.height]
      omega
    rwa [cut_self hheight, drop_scopes hsite.scopes] at hc

/-- What a loop does after its body, as its evaluation says. -/
theorem again_sim (values : List Value) (hsite : Suits site stack scopes) {top m j : Nat}
    {l : Label} {again : Eval Flow} (hjump : p.ops[m]? = some (.jump l))
    (ht : p.target l = some top)
    (hagain : Sim s p stack scopes n (Standing p top (values ++ stack) scopes) again
      (Leaves p site j stack scopes)) (flow : Flow) :
    Sim s p stack scopes n
      (Leaves p (site.inLoop values.length top j) m (values ++ stack) scopes flow)
      (flow.again again) (Leaves p site j stack scopes) := by
  cases flow with
  | next => exact hagain.started (back_gets values hsite hjump ht (.inl rfl))
  | «continue» => exact hagain.started (back_gets values hsite hjump ht (.inr rfl))
  | «break» =>
    refine .pure ?_
    rintro env w c ⟨loop, hloop, hc⟩
    cases hloop
    rwa [← hsite.height, cut_length, drop_scopes hsite.scopes] at hc
  | «return» v => exact .pure fun _ _ _ h => h

/-! ## Lists -/

theorem counter_lt {n : Nat} (h : n < 2 ^ 63) :
    ¬ Int64.ofNat n < 0 ∧ (Int64.ofNat n).toNatClampNeg = n := by
  refine ⟨?_, Int64.toNatClampNeg_ofNat_of_lt h⟩
  rw [Int64.lt_iff_toInt_lt, Int64.toInt_ofNat_of_lt h]
  have hzero : (0 : Int64).toInt = 0 := rfl
  omega

/-- The element that a counter points to, which is none from the largest number on. -/
theorem counter_item {α : Type} (items : List α) {n : Nat} (h : n ≤ 2 ^ 63) :
    (if Int64.ofNat n < 0 then none else items[(Int64.ofNat n).toNatClampNeg]?) =
      ((items.take (2 ^ 63)).drop n).head? := by
  rcases Nat.lt_or_eq_of_le h with hlt | rfl
  · obtain ⟨hneg, hnat⟩ := counter_lt hlt
    rw [if_neg hneg, hnat, List.head?_drop, List.getElem?_take, if_pos hlt]
  · -- The counter has wrapped round to a negative number, past the elements that count.
    have hneg : Int64.ofNat (2 ^ 63) < 0 := by decide
    have hlen : (items.take (2 ^ 63)).length ≤ 2 ^ 63 := by
      rw [List.length_take]; exact Nat.min_le_left _ _
    rw [if_pos hneg, List.drop_eq_nil_of_le hlen, List.head?_nil]

/-- The head of a loop over a list, by the elements that are left. -/
theorem perform_forList {items rest : List Value} {k : Nat} (hk : k ≤ 2 ^ 63)
    (hrest : (items.take (2 ^ 63)).drop k = rest) (name : Name) (finish : Label) (i : Nat)
    (catches : List (Catch × Label)) (kept : Value) (env : Env) :
    (frame p (i + 1) (.int (Int64.ofNat k) :: .list items :: stack) scopes catches kept env).perform
        (.forList name finish) =
      match rest.head? with
      | some item => match (frame p (i + 1) (.int (Int64.ofNat k + 1) :: .list items :: stack) scopes
          catches kept env).bind name item with
        | some f => .next f
        | none => .fault
      | none => (frame p (i + 1) stack scopes catches kept env).jump finish := by
  have hitem := counter_item items hk
  rw [hrest] at hitem
  rw [← hitem]
  rfl

theorem forEach_sim (hsite : Suits site stack scopes) {name : Name} (hname : Slotted p name)
    {i m j : Nat} {top finish : Label} {body : Eval Flow} {items : List Value}
    (hop : p.ops[i]? = some (.forList name finish)) (hjump : p.ops[m]? = some (.jump top))
    (htop : p.target top = some i) (hfinish : p.target finish = some j)
    (hbody : ∀ values, values.length = 2 → Sim s p (values ++ stack) scopes n
      (Standing p (i + 1) (values ++ stack) scopes) body
      (Leaves p (site.inLoop 2 i j) m (values ++ stack) scopes))
    (rest : List Value) {k : Nat} (hrest : (items.take (2 ^ 63)).drop k = rest) (hk : k ≤ 2 ^ 63) :
    Sim s p stack scopes n
      (Standing p i (.int (Int64.ofNat k) :: .list items :: stack) scopes)
      (forEach name body rest) (Leaves p site j stack scopes) := by
  induction rest generalizing k with
  | nil =>
    simp only [forEach]
    refine .before (.standing hop fun catches kept env => ?_) (.pure fun _ _ _ h => h)
    rw [perform_forList hk hrest]
    exact Frame.jump_target hfinish
  | cons v rest ih =>
    have hlen : k < 2 ^ 63 := by
      have h₁ := congrArg List.length hrest
      rw [List.length_drop, List.length_take, List.length_cons] at h₁
      omega
    have hrest' : (items.take (2 ^ 63)).drop (k + 1) = rest := by
      rw [← List.drop_drop, hrest]
      rfl
    have hnext : Int64.ofNat (k + 1) = Int64.ofNat k + 1 := Int64.ofNat_add k 1
    -- The next round, from the counter as the machine increments it.
    have hround := ih hrest' hlen
    rw [hnext] at hround
    simp only [forEach]
    -- The head of the loop sets the variable; the rest is the body and the jump back.
    have hset : Sim s p stack scopes n
        (Standing p i (.int (Int64.ofNat k) :: .list items :: stack) scopes) (Eval.set name v)
        fun _ => Standing p (i + 1) (.int (Int64.ofNat k + 1) :: .list items :: stack) scopes := by
      refine .standing fun catches => .here fun kept => ?_
      refine (Sim.binds hop hname fun env => ?_).imp fun _ _ _ _ h => ⟨catches, kept, h⟩
      exact perform_forList hk hrest name finish i catches kept env
    refine hset.bind fun _ => ?_
    have hb := hbody [.int (Int64.ofNat k + 1), .list items] rfl
    exact (hb.lower (List.suffix_append _ _)).bind fun flow =>
        again_sim [.int (Int64.ofNat k + 1), .list items] hsite hjump htop hround flow

/-! ## Numbers -/

/-- The bounds after a round of a loop over numbers. -/
def nextBounds (first last : Int64) : List Value :=
  if first = Int64.maxValue then [.int (last - 1), .int first] else [.int last, .int (first + 1)]

theorem toInt_succ {a : Int64} (h : a ≠ Int64.maxValue) : (a + 1).toInt = a.toInt + 1 := by
  have hne : a.toInt ≠ Int64.maxValue.toInt := fun heq => h (Int64.toInt_inj.mp heq)
  have hmax : Int64.maxValue.toInt = 2 ^ 63 - 1 := rfl
  have hone : (1 : Int64).toInt = 1 := rfl
  have hlt := a.toInt_lt
  have hle := a.le_toInt
  rw [Int64.toInt_add, hone, Int.bmod_def]
  omega

theorem toInt_pred {a : Int64} (h : a = Int64.maxValue) : (a - 1).toInt = a.toInt - 1 := by
  subst h
  rfl

/-- Each round leaves one number less to go over. -/
theorem forCount_sim (hsite : Suits site stack scopes) {name : Name} (hname : Slotted p name)
    {i m j : Nat} {top finish : Label} {body : Eval Flow}
    (hop : p.ops[i]? = some (.forRange name finish)) (hjump : p.ops[m]? = some (.jump top))
    (htop : p.target top = some i) (hfinish : p.target finish = some j)
    (hbody : ∀ values, values.length = 2 → Sim s p (values ++ stack) scopes n
      (Standing p (i + 1) (values ++ stack) scopes) body
      (Leaves p (site.inLoop 2 i j) m (values ++ stack) scopes))
    (count : Nat) {a b : Int64} (hcount : countFromTo a b = count) :
    Sim s p stack scopes n (Standing p i (.int b :: .int a :: stack) scopes)
      (forCount name body count a) (Leaves p site j stack scopes) := by
  induction count generalizing a b with
  | zero =>
    have hlt : b < a := by
      rw [Int64.lt_iff_toInt_lt]
      simp only [countFromTo] at hcount
      omega
    simp only [forCount]
    refine .before (.standing hop fun catches kept env => ?_) (.pure fun _ _ _ h => h)
    show (if b < a then _ else _) = _
    rw [if_pos hlt]
    exact Frame.jump_target hfinish
  | succ count ih =>
    have hlt : ¬ b < a := by
      rw [Int64.lt_iff_toInt_lt]
      simp only [countFromTo] at hcount
      omega
    -- The next round, from the bounds as the machine changes them.
    have hround : Sim s p stack scopes n (Standing p i (nextBounds a b ++ stack) scopes)
        (forCount name body count (a + 1)) (Leaves p site j stack scopes) := by
      by_cases hmax : a = Int64.maxValue
      · -- Here `b` is the largest number as well, and this was the last round.
        have hzero : count = 0 := by
          have hb := b.toInt_lt
          have ha : a.toInt = 2 ^ 63 - 1 := hmax ▸ rfl
          simp only [countFromTo] at hcount
          omega
        subst hzero
        have hb : b = Int64.maxValue := by
          have hlt := b.toInt_lt
          have ha : a.toInt = 2 ^ 63 - 1 := hmax ▸ rfl
          have hm : Int64.maxValue.toInt = 2 ^ 63 - 1 := rfl
          rw [Int64.lt_iff_toInt_lt] at *
          exact Int64.toInt_inj.mp (by omega)
        have hlast : countFromTo a (b - 1) = 0 := by
          rw [countFromTo, toInt_pred hb, hmax, hb]
          rfl
        have hend := ih hlast
        rw [nextBounds, if_pos hmax]
        exact hend
      · have hless : countFromTo (a + 1) b = count := by
          simp only [countFromTo, toInt_succ hmax] at hcount ⊢
          omega
        rw [nextBounds, if_neg hmax]
        exact ih hless
    have hbounds : (nextBounds a b).length = 2 := by
      rw [nextBounds]
      split <;> rfl
    simp only [forCount]
    have hset : Sim s p stack scopes n (Standing p i (.int b :: .int a :: stack) scopes)
        (Eval.set name (.int a)) fun _ => Standing p (i + 1) (nextBounds a b ++ stack) scopes := by
      refine .standing fun catches => .here fun kept => ?_
      refine Sim.imp ?_ fun _ _ _ _ h => ⟨catches, kept, h⟩
      refine Sim.binds hop hname fun env => ?_
      show (if b < a then _ else _) = _
      rw [if_neg hlt]
      rfl
    refine hset.bind fun _ => ?_
    have hb := hbody (nextBounds a b) hbounds
    rw [← hbounds] at hb
    exact (hb.lower (List.suffix_append _ _)).bind fun flow =>
        again_sim _ hsite hjump htop hround flow

/-! ## Conditions -/

/-- With `k` units of fuel the run does not end if the loop goes round more than `k` times. -/
theorem whileLoop_sim (hsite : Suits site stack scopes) {i k m j : Nat} {top finish : Label}
    {condition : Eval Value} {body : Eval Flow} (hop : p.ops[k]? = some (.loopWhile finish))
    (hjump : p.ops[m]? = some (.jump top)) (htop : p.target top = some i)
    (hfinish : p.target finish = some j)
    (hcondition : ∀ catches, Sim s p stack scopes s.fuel (Here p i stack scopes catches) condition
      fun v => Here p k (v :: stack) scopes catches)
    (hbody : Sim s p stack scopes s.fuel (Standing p (k + 1) stack scopes) body
      (Leaves p (site.inLoop 0 i j) m stack scopes))
    (fuel : Nat) (hfuel : fuel ≤ s.fuel) :
    Sim s p stack scopes fuel (Standing p i stack scopes) (whileLoop condition body fuel)
      (Leaves p site j stack scopes) := by
  induction fuel with
  | zero =>
    -- Without fuel neither the evaluation nor the run comes to an end.
    rintro env w c - ⟨catches, kept, rfl⟩
    rfl
  | succ fuel ih =>
    simp only [whileLoop]
    refine .standing fun catches => ((hcondition catches).less hfuel).bind fun v => ?_
    have hperform (kept : Value) (env : Env) :
        (frame p (k + 1) (v :: stack) scopes catches kept env).perform (.loopWhile finish) =
          (frame p (k + 1) stack scopes catches kept env).jumpUnless v.truth finish := rfl
    split
    case isTrue hv =>
      have hgo : Goes s p (Here p k (v :: stack) scopes catches)
          (Here p (k + 1) stack scopes catches) := by
        refine .instruction hop fun kept env => ⟨kept, ?_⟩
        rw [hperform, Frame.jumpUnless, if_pos hv]
      have hround := (hbody.less (Nat.le_of_succ_le hfuel)).bind fun flow =>
        again_sim [] hsite hjump htop (ih (Nat.le_of_succ_le hfuel)) flow
      exact .before_succ hgo (hround.from_ fun env w c h => ⟨catches, h⟩)
    case isFalse hv =>
      have hgo : Goes s p (Here p k (v :: stack) scopes catches) (Here p j stack scopes catches) := by
        refine .instruction hop fun kept env => ⟨kept, ?_⟩
        rw [hperform, Frame.jumpUnless, if_neg hv, Frame.jump_target hfinish]
        rfl
      exact .before hgo (.pure fun env w c h => ⟨catches, h⟩)

end

end Lineage.Script
