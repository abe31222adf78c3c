import AbstractDomains.Proofs.Monotonicity

/-!
# Products against their parts

A product evaluates an expression as its components do on their own, apart from two things: the
reduction sharpens the pair after every operator, and the pair stops at once where either component
finds bottom, whatever the other one has found. Neither loses precision. A product without a
reduction gains none by it either: the component that found bottom keeps it up to the root, so that
the pair is what its two components find, smashed.

The pairs an analysis meets are smashed: they are bottom, or neither component is.

Results:
* `ReducedProduct.Built.smashed`: what can be built is smashed, under any reduction.
* `PlainProduct.eval_isSmashOf`: without a reduction smashed pairs are exactly as precise as both
  components.
* `ReducedProduct.sharpens_plain`: under any reduction they stay at least as precise as that.
* `ReducedProduct.eval_below_components`: so they do as either component on its own.
-/

namespace AbstractDomains

open ValueDomain Analysis

/-! ## Smashed pairs -/

namespace ReducedProduct

section Smashed

variable {α β : Type} [DecidableEq α] [DecidableEq β] [AbstractLattice α] [AbstractLattice β]
  {r : Reduction α β} {C : α → Prop} {D : β → Prop}

/-- The pair is bottom, or neither of its components counts as bottom. -/
def Smashed (p : ReducedProduct r) : Prop :=
  p = .bottom ∨ isBottom p.left = false ∧ isBottom p.right = false

variable [Describe α] [Describe β] {p q s : ReducedProduct r}

theorem smashed_pair {a : α} {b : β} (h : pair a b = .ok p) : p.Smashed := by
  unfold pair at h
  split at h
  · exact .inl (Except.ok.inj h).symm
  · obtain ⟨c, -, h⟩ := bind_eq_ok.mp h
    obtain ⟨below, -, h⟩ := bind_eq_ok.mp h
    cases below with
    | false => cases h
    | true =>
      obtain rfl := pure_eq_ok.mp h
      split
      · exact .inl rfl
      · rename_i hc
        rw [Bool.or_eq_true_iff, not_or, Bool.not_eq_true, Bool.not_eq_true] at hc
        exact .inr hc

theorem smashed_both {x : Analysis α} {y : Analysis β} (h : both x y = .ok p) : p.Smashed := by
  obtain ⟨a, b, -, -, h⟩ := both_inv h
  exact smashed_pair h

/-- An operation on components returns an operand, or a pair that was smashed. -/
theorem smashed_upward {f : α → α → Analysis α} {g : β → β → Analysis β}
    (h : AbstractLattice.upward (fun p q => both (f p.left q.left) (g p.right q.right)) p q = .ok s)
    (hp : p.Smashed) (hq : q.Smashed) : s.Smashed := by
  rcases upward_inv h with ⟨rfl, -⟩ | ⟨rfl, -⟩ | ⟨-, h⟩
  · exact hp
  · exact hq
  · exact smashed_both h

theorem smashed_downward {f : α → α → Analysis α} {g : β → β → Analysis β}
    (h : AbstractLattice.downward (fun p q => both (f p.left q.left) (g p.right q.right)) p q =
      .ok s) (hp : p.Smashed) (hq : q.Smashed) : s.Smashed := by
  rcases downward_inv h with ⟨rfl, -⟩ | ⟨rfl, -⟩ | ⟨-, h⟩
  · exact hp
  · exact hq
  · exact smashed_both h

/-- A reduced pair is below the values it is made of. -/
theorem below_of_pair (hα : isBottom (AbstractDomains.bottom : α) = true)
    (hβ : isBottom (AbstractDomains.bottom : β) = true) {a : α} {b : β} (h : pair a b = .ok p) :
    Below p.left a ∧ Below p.right b := by
  rcases pair_inv h with ⟨rfl, -⟩ | ⟨c, -, hc, ⟨rfl, -⟩ | rfl⟩
  · exact ⟨below_of_isBottom hα, below_of_isBottom hβ⟩
  · exact ⟨below_of_isBottom hα, below_of_isBottom hβ⟩
  · exact below_of_componentwise hc

/-- **What can be built is smashed**, under any reduction, as long as top does not count as
bottom. -/
theorem Built.smashed (hα : isBottom (AbstractDomains.top : α) = false)
    (hβ : isBottom (AbstractDomains.top : β) = false) (h : Built C D p) : p.Smashed := by
  induction h with
  | top => exact .inr ⟨hα, hβ⟩
  | bottom => exact .inl rfl
  | pair _ _ h => exact smashed_pair h
  | join _ _ h ihp ihq => exact smashed_upward h ihp ihq
  | widen _ _ h ihp ihq => exact smashed_upward h ihp ihq
  | meet _ _ h ihp ihq => exact smashed_downward h ihp ihq
  | narrow _ _ h ihp ihq => exact smashed_downward h ihp ihq

end Smashed

end ReducedProduct

/-! ## Lookups of components -/

namespace ReducedProduct

variable {α β : Type} [DecidableEq α] [DecidableEq β] [AbstractLattice α] [AbstractLattice β]
  {r : Reduction α β}

/-- The left components of what is found for variables. -/
def leftLookup (lookup : Identifier → Option (ReducedProduct r)) (id : Identifier) : Option α :=
  (lookup id).map (·.left)

/-- The right components of what is found for variables. -/
def rightLookup (lookup : Identifier → Option (ReducedProduct r)) (id : Identifier) : Option β :=
  (lookup id).map (·.right)

end ReducedProduct

/-! ## No reduction -/

/-- A domain to be a component of a plain product: its hooks never fail, the one for no value finds
bottom, and bottom counts as bottom while top does not. -/
structure ComponentDomain (α : Type) [DecidableEq α] [ValueDomain α] : Prop extends
    TotalDomain α where
  skip_bottom : ∀ point, (evalSkip point : Analysis α) = .ok bottom
  isBottom_bottom : isBottom (bottom : α) = true
  isBottom_top : isBottom (top : α) = false

namespace PlainProduct

open ReducedProduct (leftLookup rightLookup)

section Pairs

variable {α β : Type} [DecidableEq α] [DecidableEq β] [AbstractLattice α] [AbstractLattice β]

/-- The pair of two values, which is bottom if either of them is. -/
def smash (a : α) (b : β) : PlainProduct α β :=
  if isBottom a || isBottom b then .bottom else ⟨a, b⟩

variable {a : α} {b : β}

theorem smash_of_left (h : isBottom a = true) : smash a b = .bottom :=
  if_pos (Bool.or_eq_true_iff.mpr (.inl h))

theorem smash_of_right (h : isBottom b = true) : smash a b = .bottom :=
  if_pos (Bool.or_eq_true_iff.mpr (.inr h))

theorem smash_of_defined (ha : isBottom a = false) (hb : isBottom b = false) :
    smash a b = ⟨a, b⟩ := by
  unfold smash
  rw [ha, hb]
  rfl

/-- Smashing only moves down. -/
theorem smash_below (hα : LatticeOn fun _ : α => True) (hβ : LatticeOn fun _ : β => True) (a : α)
    (b : β) : Below (smash a b).left a ∧ Below (smash a b).right b := by
  unfold smash
  split
  · exact ⟨hα.bottom_le trivial, hβ.bottom_le trivial⟩
  · exact ⟨below_self a, below_self b⟩

/-- Without a reduction there is nothing to refuse. -/
theorem pair_eq_smash [Describe α] [Describe β] (a : α) (b : β) :
    (ReducedProduct.pair a b : Analysis (PlainProduct α β)) = .ok (smash a b) := by
  have hself : componentwise (a, b) (a, b) = .ok true := by
    unfold componentwise
    rw [leq_self a, leq_self b]
    rfl
  unfold ReducedProduct.pair smash
  cases h : isBottom a || isBottom b with
  | true => rfl
  | false => simp [Reduction.none, hself, h, bind, Except.bind, pure, Except.pure]

/-- `z` succeeds with the smashed pair of the results of `x` and `y`. -/
def IsSmashOf (x : Analysis α) (y : Analysis β) (z : Analysis (PlainProduct α β)) : Prop :=
  ∃ a b, x = .ok a ∧ y = .ok b ∧ z = .ok (smash a b)

theorem both_isSmashOf [Describe α] [Describe β] {x : Analysis α} {y : Analysis β}
    (hx : x.Succeeds) (hy : y.Succeeds) :
    IsSmashOf x y (ReducedProduct.both x y : Analysis (PlainProduct α β)) := by
  obtain ⟨a, rfl⟩ := hx
  obtain ⟨b, rfl⟩ := hy
  exact ⟨a, b, rfl, rfl, pair_eq_smash a b⟩

end Pairs

variable {α β : Type} [DecidableEq α] [DecidableEq β] [ValueDomain α] [ValueDomain β] [Describe α]
  [Describe β]

/-- A smashed pair whose components are not bottom is not bottom either. -/
theorem isBottom_smash (hα : ComponentDomain α) {a : α} {b : β} (ha : isBottom a = false) :
    isBottom (⟨a, b⟩ : PlainProduct α β) = false := by
  refine decide_eq_false fun h => ?_
  have hbottom : a = bottom := congrArg ReducedProduct.left h
  rw [hbottom, hα.isBottom_bottom] at ha
  exact Bool.false_ne_true ha.symm

/-- The pair stops as soon as one of its components does. The other component goes on, but whatever
it finds is smashed. -/
theorem onDefined_isSmashOf (hα : ComponentDomain α) {x : Analysis α} {y : Analysis β}
    {z : Analysis (PlainProduct α β)} {f : α → Analysis α} {g : β → Analysis β}
    {h : PlainProduct α β → Analysis (PlainProduct α β)} (hxyz : IsSmashOf x y z)
    (hf : ∀ a, (f a).Succeeds) (hg : ∀ b, (g b).Succeeds)
    (hfgh : ∀ a b, isBottom a = false → isBottom b = false → IsSmashOf (f a) (g b) (h ⟨a, b⟩)) :
    IsSmashOf (onDefined x f) (onDefined y g) (onDefined z h) := by
  obtain ⟨a, b, rfl, rfl, rfl⟩ := hxyz
  have hstop : ∀ k, onDefined (.ok (.bottom : PlainProduct α β)) k = .ok .bottom :=
    onDefined_of_bottom (decide_eq_true rfl)
  cases ha : isBottom a with
  | true =>
    obtain ⟨b', hb'⟩ := onDefined_succeeds (succeeds_ok b) hg
    rw [smash_of_left ha, hstop, onDefined_of_bottom ha, hb']
    exact ⟨a, b', rfl, rfl, congrArg Except.ok (smash_of_left ha).symm⟩
  | false =>
    cases hb : isBottom b with
    | true =>
      obtain ⟨a', ha'⟩ := onDefined_succeeds (succeeds_ok a) hf
      rw [smash_of_right hb, hstop, onDefined_of_bottom hb, ha']
      exact ⟨a', b, rfl, rfl, congrArg Except.ok (smash_of_right hb).symm⟩
    | false =>
      rw [smash_of_defined ha hb, onDefined_of_defined ha, onDefined_of_defined hb,
        onDefined_of_defined (isBottom_smash hα ha)]
      exact hfgh a b ha hb

variable {lookup : Identifier → Option (PlainProduct α β)} {point : ProgramPoint}

/-- **Evaluation of smashed pairs** is evaluation in both components, smashed. -/
theorem eval_isSmashOf (hα : ComponentDomain α) (hβ : ComponentDomain β)
    (hl : ∀ id p, lookup id = some p → p.Smashed) (e : Expr) :
    IsSmashOf (eval (leftLookup lookup) point e) (eval (rightLookup lookup) point e)
      (eval lookup point e) := by
  have hleft : ∀ e, (eval (leftLookup lookup) point e).Succeeds := eval_succeeds hα.toTotalDomain
  have hright : ∀ e, (eval (rightLookup lookup) point e).Succeeds :=
    eval_succeeds hβ.toTotalDomain
  have hbottom : IsSmashOf (.ok (bottom : α)) (.ok (bottom : β))
      (.ok (bottom : PlainProduct α β)) :=
    ⟨bottom, bottom, rfl, rfl, congrArg Except.ok (smash_of_left hα.isBottom_bottom).symm⟩
  have hmisfit : ∀ {e : Expr}, ¬ e.operandsFit = true →
      IsSmashOf (eval (leftLookup lookup) point e) (eval (rightLookup lookup) point e)
        (eval lookup point e) := by
    intro e hfit
    rw [eval_of_misfit hfit, eval_of_misfit hfit, eval_of_misfit hfit]
    exact hbottom
  induction e with
  | constant value types =>
    cases value with
    | null => exact both_isSmashOf (hα.null point) (hβ.null point)
    | _ => exact both_isSmashOf (hα.nonNull _ point) (hβ.nonNull _ point)
  | var id types =>
    show IsSmashOf (valueOf _ point id) (valueOf _ point id) (valueOf lookup point id)
    unfold valueOf leftLookup rightLookup
    cases hid : lookup id with
    | none => exact both_isSmashOf (hα.unbound id point) (hβ.unbound id point)
    | some p =>
      refine ⟨p.left, p.right, rfl, rfl, congrArg Except.ok ?_⟩
      rcases hl id p hid with rfl | ⟨ha, hb⟩
      · exact (smash_of_left hα.isBottom_bottom).symm
      · exact (smash_of_defined ha hb).symm
  | pushAny types => exact both_isSmashOf (hα.pushAny types point) (hβ.pushAny types point)
  | skip types =>
    show IsSmashOf (evalSkip point) (evalSkip point) (.ok bottom)
    rw [hα.skip_bottom, hβ.skip_bottom]
    exact hbottom
  | unary op arg types ih =>
    by_cases hfit : (Expr.unary op arg types).operandsFit = true
    · rw [eval_unary hfit, eval_unary hfit, eval_unary hfit]
      exact onDefined_isSmashOf hα ih (hα.unary op · point) (hβ.unary op · point)
        fun a b _ _ => both_isSmashOf (hα.unary op a point) (hβ.unary op b point)
    · exact hmisfit hfit
  | binary op left right types ihl ihr =>
    by_cases hfit : (Expr.binary op left right types).operandsFit = true
    · rw [eval_binary hfit, eval_binary hfit, eval_binary hfit]
      refine onDefined_isSmashOf hα ihl
        (fun l => onDefined_succeeds (hleft right) fun r => hα.binary op l r point)
        (fun l => onDefined_succeeds (hright right) fun r => hβ.binary op l r point)
        fun l l' _ _ => ?_
      exact onDefined_isSmashOf hα ihr (hα.binary op l · point) (hβ.binary op l' · point)
        fun r r' _ _ => both_isSmashOf (hα.binary op l r point) (hβ.binary op l' r' point)
    · exact hmisfit hfit
  | ternary op left middle right types ihl ihm ihr =>
    by_cases hfit : (Expr.ternary op left middle right types).operandsFit = true
    · rw [eval_ternary hfit, eval_ternary hfit, eval_ternary hfit]
      refine onDefined_isSmashOf hα ihl
        (fun l => onDefined_succeeds (hleft middle) fun m =>
          onDefined_succeeds (hleft right) fun r => hα.ternary op l m r point)
        (fun l => onDefined_succeeds (hright middle) fun m =>
          onDefined_succeeds (hright right) fun r => hβ.ternary op l m r point)
        fun l l' _ _ => ?_
      refine onDefined_isSmashOf hα ihm
        (fun m => onDefined_succeeds (hleft right) fun r => hα.ternary op l m r point)
        (fun m => onDefined_succeeds (hright right) fun r => hβ.ternary op l' m r point)
        fun m m' _ _ => ?_
      exact onDefined_isSmashOf hα ihr (hα.ternary op l m · point) (hβ.ternary op l' m' · point)
        fun r r' _ _ => both_isSmashOf (hα.ternary op l m r point) (hβ.ternary op l' m' r' point)
    · exact hmisfit hfit

end PlainProduct

/-! ## Any reduction -/

namespace ReducedProduct

open PlainProduct (smash)

section Pairs

variable {α β : Type} [DecidableEq α] [DecidableEq β] [AbstractLattice α] [AbstractLattice β]
  {r : Reduction α β}

/-- The pair without its reduction. -/
def plain (p : ReducedProduct r) : PlainProduct α β :=
  ⟨p.left, p.right⟩

theorem Smashed.plain {p : ReducedProduct r} (hp : p.Smashed) : p.plain.Smashed := by
  rcases hp with rfl | hp
  · exact .inl rfl
  · exact .inr hp

end Pairs

variable {α β : Type} [DecidableEq α] [DecidableEq β] [ValueDomain α] [ValueDomain β] [Describe α]
  [Describe β] {r : Reduction α β} {a a' : α} {b b' : β}

/-- The reduced pair of lower values is below the plain one of higher values. -/
theorem pair_sharpens (hα : LatticeOn fun _ : α => True) (hβ : LatticeOn fun _ : β => True)
    (hr : r.Total) (ha : Below a a') (hb : Below b b') :
    Related (Sharpens : ReducedProduct r → PlainProduct α β → Prop) (pair a b) (pair a' b') := by
  obtain ⟨p, hp⟩ := pair_succeeds hr a b
  obtain ⟨hleft, hright⟩ := below_of_pair ((hα.isBottom_iff trivial).mpr rfl)
    ((hβ.isBottom_iff trivial).mpr rfl) hp
  rw [PlainProduct.pair_eq_smash, hp]
  refine related_ok ?_
  by_cases hempty : isBottom a' = true ∨ isBottom b' = true
  · -- then a component of the lower pair is bottom as well
    have hlow : isBottom a = true ∨ isBottom b = true := by
      refine hempty.imp (fun h => ?_) (fun h => ?_)
      · rw [(hα.isBottom_iff trivial).mp h] at ha
        exact (hα.isBottom_iff trivial).mpr (hα.eq_bottom trivial ha)
      · rw [(hβ.isBottom_iff trivial).mp h] at hb
        exact (hβ.isBottom_iff trivial).mpr (hβ.eq_bottom trivial hb)
    have hbottom : p = .bottom := Except.ok.inj (hp.symm.trans (pair_of_bottom hlow))
    rw [hbottom]
    exact ⟨hα.bottom_le trivial, hβ.bottom_le trivial⟩
  · rw [not_or, Bool.not_eq_true, Bool.not_eq_true] at hempty
    rw [PlainProduct.smash_of_defined hempty.1 hempty.2]
    exact ⟨hα.trans trivial trivial trivial hleft ha, hβ.trans trivial trivial trivial hright hb⟩

/-- **A reduction only sharpens** what the plain product finds, if the hooks of the components are
monotone. -/
theorem sharpens_plain (hα : LatticeOn fun _ : α => True) (hβ : LatticeOn fun _ : β => True)
    (hr : r.Total) (hleft : HooksRelated (Below : α → α → Prop))
    (hright : HooksRelated (Below : β → β → Prop)) :
    HooksRelated (Sharpens : ReducedProduct r → PlainProduct α β → Prop) :=
  hooksRelated hα hβ hleft hright (pair_sharpens hα hβ hr)

variable {lookup : Identifier → Option (ReducedProduct r)} {point : ProgramPoint}

/-- **Values of smashed pairs** are below those that either component finds on its own. -/
theorem eval_below_components (hα : LatticeOn fun _ : α => True) (hβ : LatticeOn fun _ : β => True)
    (hr : r.Total) (hleft : HooksRelated (Below : α → α → Prop))
    (hright : HooksRelated (Below : β → β → Prop)) (hCα : ComponentDomain α)
    (hCβ : ComponentDomain β) (hl : ∀ id p, lookup id = some p → p.Smashed) (e : Expr) :
    ∃ p a b, eval lookup point e = .ok p ∧ eval (leftLookup lookup) point e = .ok a ∧
      eval (rightLookup lookup) point e = .ok b ∧ Below p.left a ∧ Below p.right b := by
  let plainLookup : Identifier → Option (PlainProduct α β) := fun id => (lookup id).map plain
  have hL : leftLookup plainLookup = leftLookup lookup := funext fun id => Option.map_map ..
  have hR : rightLookup plainLookup = rightLookup lookup := funext fun id => Option.map_map ..
  have hsmashed : ∀ id p, plainLookup id = some p → p.Smashed := by
    intro id p hid
    obtain ⟨q, hq, rfl⟩ := Option.map_eq_some_iff.mp hid
    exact (hl id q hq).plain
  have hhooks : HooksRelated (Sharpens : ReducedProduct r → PlainProduct α β → Prop) :=
    sharpens_plain hα hβ hr hleft hright
  have hvalues : ∀ id,
      Related Sharpens (valueOf lookup point id) (valueOf plainLookup point id) := by
    intro id
    cases hid : lookup id with
    | none =>
      have hplain : plainLookup id = none := congrArg (Option.map plain) hid
      unfold valueOf
      rw [hid, hplain]
      exact hhooks.unbound id point
    | some p =>
      have hplain : plainLookup id = some p.plain := congrArg (Option.map plain) hid
      unfold valueOf
      rw [hid, hplain]
      exact related_ok ⟨below_self _, below_self _⟩
  obtain ⟨p, q, hp, hq, hpq⟩ := eval_related hhooks hvalues e
  obtain ⟨a, b, ha, hb, hab⟩ : PlainProduct.IsSmashOf (eval (leftLookup plainLookup) point e)
      (eval (rightLookup plainLookup) point e) (eval plainLookup point e) :=
    PlainProduct.eval_isSmashOf hCα hCβ hsmashed e
  obtain rfl : q = smash a b := Except.ok.inj (hq.symm.trans hab)
  rw [hL] at ha
  rw [hR] at hb
  obtain ⟨hqa, hqb⟩ := PlainProduct.smash_below hα hβ a b
  exact ⟨p, a, b, hp, ha, hb, hα.trans trivial trivial trivial hpq.1 hqa,
    hβ.trans trivial trivial trivial hpq.2 hqb⟩

end ReducedProduct

end AbstractDomains
