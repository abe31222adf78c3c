import AbstractDomains.Proofs.JoinLaws
import AbstractDomains.Proofs.ProductPrecision

/-!
# Products under arbitrary reductions

Nothing is asked of a reduction but that it is a function: it may fail, move a component up, leave
one component bottom and not the other, or find more each time it is applied. What holds of a
product nevertheless rests on the checks that are made around it, which refuse a pair that is not
below the one that was reduced, and smash one with a bottom component. The trivial cases of the
operations are not reduced at all; they return an operand.

Joins of such products need not be bounds: what a reduction drops may have been in an operand.

Results:
* `ReducedProduct.Obtained.smashed`: what is obtained by operations and hooks is bottom in both
  components, or in neither.
* `ReducedProduct.below_of_meet`: meets are below both operands.
* `ReducedProduct.below_of_join`: joins are below the joins of the components.
-/

namespace AbstractDomains

open ValueDomain

/-! ## Components -/

/-- The second operand is only returned if the first one is not above it trivially, but it is never
more than the join. -/
theorem exists_join_above {α : Type} [DecidableEq α] [AbstractLattice α] {a b : α}
    (h : isBottom a = true ∨ isTop b = true) :
    ∃ c, join a b = .ok c ∧ Below b c := by
  unfold join
  rcases upward_cases AbstractLattice.joinProper a b with ⟨hc, hab⟩ | ⟨hc, -⟩ | ⟨hab, -⟩
  · refine ⟨a, hc, ?_⟩
    rcases hab with hb | ha | rfl
    · exact below_of_isBottom hb
    · exact below_of_isTop ha
    · exact below_self a
  · exact ⟨b, hc, below_self b⟩
  · rcases h with ha | hb
    · exact absurd (hab.left_bottom.symm.trans ha) Bool.false_ne_true
    · exact absurd (hab.right_top.symm.trans hb) Bool.false_ne_true

/-- What a product needs of a component, whose values are those in `C`. -/
structure Component {α : Type} [DecidableEq α] [AbstractLattice α] (C : α → Prop) : Prop where
  bottom_mem : C bottom
  isBottom_bottom : isBottom (bottom : α) = true
  isTop_top : isTop (top : α) = true
  isBottom_top : isBottom (top : α) = false
  trans : ∀ {a b c}, C a → C b → C c → Below a b → Below b c → Below a c
  of_meet : ∀ {a b c}, C a → C b → meet a b = .ok c → C c ∧ Below c a ∧ Below c b

/-- A reduction that finds values in `C` and `D` for those in `C` and `D`. This is no condition on a
reduction of lattices all of whose elements are lawful. -/
def Reduction.Within {α β : Type} [DecidableEq α] [DecidableEq β] [AbstractLattice α]
    [AbstractLattice β] (r : Reduction α β) (C : α → Prop) (D : β → Prop) : Prop :=
  ∀ {a b c}, C a → D b → r.reduce a b = .ok c → C c.1 ∧ D c.2

/-- Every lattice can be a component. -/
theorem LatticeOn.component {α : Type} [DecidableEq α] [AbstractLattice α] {C : α → Prop}
    (h : LatticeOn C) : Component C where
  bottom_mem := h.bottom_mem
  isBottom_bottom := (h.isBottom_iff h.bottom_mem).mpr rfl
  isTop_top := (h.isTop_iff h.top_mem).mpr rfl
  isBottom_top := h.isBottom_eq_false h.top_mem h.bottom_ne_top.symm
  trans := h.trans
  of_meet ha hb hc :=
    have hmeet := h.isMeet_of_meet ha hb hc
    ⟨hmeet.mem, hmeet.left, hmeet.right⟩

/-! ## Smashed pairs -/

namespace ReducedProduct

section Hooks

variable {α β : Type} [DecidableEq α] [DecidableEq β] [ValueDomain α] [ValueDomain β] [Describe α]
  [Describe β] {r : Reduction α β}

/-- The pairs that are obtained from top, bottom and reduced pairs by the operations and by the
hooks. -/
inductive Obtained : ReducedProduct r → Prop
  | top : Obtained .top
  | bottom : Obtained .bottom
  | pair {a : α} {b : β} {p : ReducedProduct r} : pair a b = .ok p → Obtained p
  | join {p q s : ReducedProduct r} :
    Obtained p → Obtained q → AbstractDomains.join p q = .ok s → Obtained s
  | meet {p q s : ReducedProduct r} :
    Obtained p → Obtained q → AbstractDomains.meet p q = .ok s → Obtained s
  | widen {p q s : ReducedProduct r} :
    Obtained p → Obtained q → AbstractDomains.widen p q = .ok s → Obtained s
  | narrow {p q s : ReducedProduct r} :
    Obtained p → Obtained q → AbstractDomains.narrow p q = .ok s → Obtained s
  | null {point : ProgramPoint} {s : ReducedProduct r} : evalNull point = .ok s → Obtained s
  | nonNull {value : Constant} {point : ProgramPoint} {s : ReducedProduct r} :
    evalNonNull value point = .ok s → Obtained s
  | unbound {id : Identifier} {point : ProgramPoint} {s : ReducedProduct r} :
    evalVariable id point = .ok s → Obtained s
  | pushAny {types : TypeSet} {point : ProgramPoint} {s : ReducedProduct r} :
    evalPushAny types point = .ok s → Obtained s
  | skip {point : ProgramPoint} {s : ReducedProduct r} : evalSkip point = .ok s → Obtained s
  | unary {op : UnaryOp} {p s : ReducedProduct r} {point : ProgramPoint} :
    Obtained p → evalUnary op p point = .ok s → Obtained s
  | binary {op : BinaryOp} {p q s : ReducedProduct r} {point : ProgramPoint} :
    Obtained p → Obtained q → evalBinary op p q point = .ok s → Obtained s
  | ternary {op : TernaryOp} {p q t s : ReducedProduct r} {point : ProgramPoint} :
    Obtained p → Obtained q → Obtained t → evalTernary op p q t point = .ok s → Obtained s

/-- Whatever the hooks of a product find was smashed. -/
theorem hooksWithin_smashed : HooksWithin (Smashed : ReducedProduct r → Prop) where
  null h := smashed_both h
  nonNull h := smashed_both h
  unbound h := smashed_both h
  pushAny h := smashed_both h
  skip h := .inl (Except.ok.inj h).symm
  unary _ h := smashed_both h
  binary _ _ h := smashed_both h
  ternary _ _ _ h := smashed_both h

/-- **What is obtained is smashed**, as long as top does not count as bottom. -/
theorem Obtained.smashed (hα : isBottom (AbstractDomains.top : α) = false)
    (hβ : isBottom (AbstractDomains.top : β) = false) {p : ReducedProduct r} (h : Obtained p) :
    p.Smashed := by
  induction h with
  | top => exact .inr ⟨hα, hβ⟩
  | bottom => exact .inl rfl
  | pair h => exact smashed_pair h
  | join _ _ h ihp ihq => exact smashed_upward h ihp ihq
  | widen _ _ h ihp ihq => exact smashed_upward h ihp ihq
  | meet _ _ h ihp ihq => exact smashed_downward h ihp ihq
  | narrow _ _ h ihp ihq => exact smashed_downward h ihp ihq
  | null h => exact hooksWithin_smashed.null h
  | nonNull h => exact hooksWithin_smashed.nonNull h
  | unbound h => exact hooksWithin_smashed.unbound h
  | pushAny h => exact hooksWithin_smashed.pushAny h
  | skip h => exact hooksWithin_smashed.skip h
  | unary _ h ih => exact hooksWithin_smashed.unary ih h
  | binary _ _ h ihp ihq => exact hooksWithin_smashed.binary ihp ihq h
  | ternary _ _ _ h ihp ihq iht => exact hooksWithin_smashed.ternary ihp ihq iht h

end Hooks

/-! ## Bounds -/

section Bounds

variable {α β : Type} [DecidableEq α] [DecidableEq β] [AbstractLattice α] [AbstractLattice β]
  [Describe α] [Describe β] {C : α → Prop} {D : β → Prop} {r : Reduction α β}
  {p q s : ReducedProduct r}

/-- The components of the pair are in `C` and `D`. -/
def Within (C : α → Prop) (D : β → Prop) (p : ReducedProduct r) : Prop :=
  C p.left ∧ D p.right

theorem within_pair (hα : Component C) (hβ : Component D) (hr : r.Within C D) {a : α} {b : β}
    (ha : C a) (hb : D b) (h : pair a b = .ok p) : p.Within C D := by
  rcases pair_inv h with ⟨rfl, -⟩ | ⟨c, hc, -, ⟨rfl, -⟩ | rfl⟩
  · exact ⟨hα.bottom_mem, hβ.bottom_mem⟩
  · exact ⟨hα.bottom_mem, hβ.bottom_mem⟩
  · exact hr ha hb hc

theorem isBottom_components (hα : Component C) (hβ : Component D) (hp : isBottom p = true) :
    isBottom p.left = true ∧ isBottom p.right = true := by
  obtain rfl : p = .bottom := of_decide_eq_true hp
  exact ⟨hα.isBottom_bottom, hβ.isBottom_bottom⟩

theorem isTop_components (hα : Component C) (hβ : Component D) (hp : isTop p = true) :
    isTop p.left = true ∧ isTop p.right = true := by
  obtain rfl : p = .top := of_decide_eq_true hp
  exact ⟨hα.isTop_top, hβ.isTop_top⟩

/-! ### Meets -/

theorem componentsBelow_of_isBottom (hα : Component C) (hβ : Component D) (hp : isBottom p = true) :
    ComponentsBelow p q := by
  obtain ⟨hleft, hright⟩ := isBottom_components hα hβ hp
  exact ⟨below_of_isBottom hleft, below_of_isBottom hright⟩

theorem componentsBelow_of_isTop (hα : Component C) (hβ : Component D) (hq : isTop q = true) :
    ComponentsBelow p q := by
  obtain ⟨hleft, hright⟩ := isTop_components hα hβ hq
  exact ⟨below_of_isTop hleft, below_of_isTop hright⟩

/-- **Meets are below both operands.** -/
theorem below_of_meet (hα : Component C) (hβ : Component D) (hr : r.Within C D)
    (hp : p.Within C D) (hq : q.Within C D) (h : meet p q = .ok s) :
    ComponentsBelow s p ∧ ComponentsBelow s q := by
  rcases downward_inv h with ⟨rfl, htrivial⟩ | ⟨rfl, htrivial⟩ | ⟨-, h⟩
  · refine ⟨componentsBelow_self _, ?_⟩
    rcases htrivial with hq | hp | rfl
    · exact componentsBelow_of_isTop hα hβ hq
    · exact componentsBelow_of_isBottom hα hβ hp
    · exact componentsBelow_self _
  · refine ⟨?_, componentsBelow_self _⟩
    rcases htrivial with hp | hq
    · exact componentsBelow_of_isTop hα hβ hp
    · exact componentsBelow_of_isBottom hα hβ hq
  · -- the reduction is only known to move down from the meets of the components
    obtain ⟨a, b, ha, hb, h⟩ := both_inv h
    obtain ⟨hCa, hap, haq⟩ := hα.of_meet hp.1 hq.1 ha
    obtain ⟨hDb, hbp, hbq⟩ := hβ.of_meet hp.2 hq.2 hb
    obtain ⟨hC, hD⟩ := within_pair hα hβ hr hCa hDb h
    obtain ⟨hleft, hright⟩ := below_of_pair hα.isBottom_bottom hβ.isBottom_bottom h
    exact ⟨⟨hα.trans hC hCa hp.1 hleft hap, hβ.trans hD hDb hp.2 hright hbp⟩,
      ⟨hα.trans hC hCa hq.1 hleft haq, hβ.trans hD hDb hq.2 hright hbq⟩⟩

/-! ### Joins -/

/-- **Joins are below the joins of the components**, which succeed where that of the pairs does. -/
theorem below_of_join (hα : Component C) (hβ : Component D) (h : join p q = .ok s) :
    ∃ a b, join p.left q.left = .ok a ∧ join p.right q.right = .ok b ∧ Below s.left a ∧
      Below s.right b := by
  rcases upward_inv h with ⟨rfl, htrivial⟩ | ⟨rfl, htrivial⟩ | ⟨-, h⟩
  · obtain ⟨hleft, hright⟩ :
        join s.left q.left = .ok s.left ∧ join s.right q.right = .ok s.right := by
      rcases htrivial with hq | hs | rfl
      · obtain ⟨hleft, hright⟩ := isBottom_components hα hβ hq
        exact ⟨join_of_isBottom_right hleft, join_of_isBottom_right hright⟩
      · obtain ⟨hleft, hright⟩ := isTop_components hα hβ hs
        exact ⟨join_of_isTop_left hleft, join_of_isTop_left hright⟩
      · exact ⟨join_self _, join_self _⟩
    exact ⟨s.left, s.right, hleft, hright, below_self _, below_self _⟩
  · obtain ⟨⟨a, ha, hleft⟩, b, hb, hright⟩ :
        (∃ a, join p.left s.left = .ok a ∧ Below s.left a) ∧
          ∃ b, join p.right s.right = .ok b ∧ Below s.right b := by
      rcases htrivial with hp | hs
      · obtain ⟨hleft, hright⟩ := isBottom_components hα hβ hp
        exact ⟨exists_join_above (.inl hleft), exists_join_above (.inl hright)⟩
      · obtain ⟨hleft, hright⟩ := isTop_components hα hβ hs
        exact ⟨exists_join_above (.inr hleft), exists_join_above (.inr hright)⟩
    exact ⟨a, b, ha, hb, hleft, hright⟩
  · obtain ⟨a, b, ha, hb, h⟩ := both_inv h
    obtain ⟨hleft, hright⟩ := below_of_pair hα.isBottom_bottom hβ.isBottom_bottom h
    exact ⟨a, b, ha, hb, hleft, hright⟩

end Bounds

/-! ## Any reduction -/

/-- **Products stay canonical under any reduction.** What is obtained by operations and hooks that
succeed is smashed, a reduced pair is below the values it is made of, meets are below both operands,
and joins are below the joins of the components. -/
theorem canonical_under_any_reduction {α β : Type} [DecidableEq α] [DecidableEq β] [ValueDomain α]
    [ValueDomain β] [Describe α] [Describe β] {C : α → Prop} {D : β → Prop} {r : Reduction α β}
    (hα : Component C) (hβ : Component D) (hr : r.Within C D) :
    (∀ p : ReducedProduct r, Obtained p → p.Smashed) ∧
    (∀ (a : α) (b : β) (p : ReducedProduct r), pair a b = .ok p →
      Below p.left a ∧ Below p.right b) ∧
    (∀ p q s : ReducedProduct r, p.Within C D → q.Within C D → meet p q = .ok s →
      ComponentsBelow s p ∧ ComponentsBelow s q) ∧
    ∀ p q s : ReducedProduct r, join p q = .ok s →
      ∃ a b, join p.left q.left = .ok a ∧ join p.right q.right = .ok b ∧ Below s.left a ∧
        Below s.right b := by
  refine ⟨fun p hp => ?_, fun a b p hp => ?_, fun p q s hp hq hs => ?_, fun p q s hs => ?_⟩
  · exact hp.smashed hα.isBottom_top hβ.isBottom_top
  · exact below_of_pair hα.isBottom_bottom hβ.isBottom_bottom hp
  · exact below_of_meet hα hβ hr hp hq hs
  · exact below_of_join hα hβ hs

/-- A reduction that fails, moves up, empties one component alone, and finds more the second
time. -/
def erratic : Reduction Sign Parity where
  reduce
    | .zeroPlus, .even => .error (.unknownSite ⟨"zero", none⟩)
    | .plus, .even => .ok (.zeroPlus, .even)
    | .minus, .even => .ok (.minus, .bottom)
    | .top, .odd => .ok (.zeroMinus, .odd)
    | .zeroMinus, .odd => .ok (.minus, .odd)
    | sign, parity => .ok (sign, parity)

/-- The pair it moves up is refused and the one it empties in part is smashed. What it drops from a
join was in an operand: the sign of the second one is zero. -/
theorem canonical_under_erratic_reduction :
    (pair .plus .even : Analysis (ReducedProduct erratic)) =
      .error (.inconsistentReduction ("ZeroPlus", "Even") ("Plus", "Even")) ∧
    ((pair .minus .even : Analysis (ReducedProduct erratic)) = .ok .bottom ∧
      (.bottom : ReducedProduct erratic).Smashed ∧ Below Sign.bottom .minus ∧
      Below Parity.bottom .even) ∧
    (let p : ReducedProduct erratic := ⟨.zeroMinus, .top⟩
    let q : ReducedProduct erratic := ⟨.top, .odd⟩
    let s : ReducedProduct erratic := ⟨.minus, .odd⟩
    meet p q = .ok s ∧ ComponentsBelow s p ∧ ComponentsBelow s q) ∧
    let p : ReducedProduct erratic := ⟨.minus, .odd⟩
    let q : ReducedProduct erratic := ⟨.zero, .odd⟩
    join p q = .ok p ∧ ¬ Below q.left p.left ∧
      ∃ a b, join p.left q.left = .ok a ∧ join p.right q.right = .ok b ∧ Below p.left a ∧
        Below p.right b := by
  have hwithin : erratic.Within (fun _ => True) fun _ => True := fun _ _ _ => ⟨trivial, trivial⟩
  obtain ⟨hsmashed, hpair, hmeet, hjoin⟩ := canonical_under_any_reduction
    Sign.latticeOn.component Parity.latticeOn.component hwithin
  have hminus : (pair .minus .even : Analysis (ReducedProduct erratic)) = .ok .bottom := rfl
  refine ⟨rfl, ⟨hminus, hsmashed _ (.pair hminus), hpair _ _ _ hminus⟩,
    ⟨rfl, hmeet _ _ _ ⟨trivial, trivial⟩ ⟨trivial, trivial⟩ rfl⟩, rfl, ?_, hjoin _ _ _ rfl⟩
  intro h
  cases h

end ReducedProduct

end AbstractDomains
