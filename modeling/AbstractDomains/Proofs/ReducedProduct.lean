import AbstractDomains.ReducedProduct
import AbstractDomains.Proofs.Totality

/-!
# Reduced products are as sound as their components

A pair stands for the values that both of its components stand for. It keeps them through every
operation if the components do and the reduction drops none of them (`Reduction.Keeps`).

Results:
* `ReducedProduct.pair_inv`: how a reduced pair came about.
* `ReducedProduct.contains_pair`: reduced pairs keep the values of both components.
* `ReducedProduct.operationsSound`, `ReducedProduct.evalSound`: the product owes to its
  concretization what the components owe to theirs, and pays it.
* `ReducedProduct.totalDomain`: the product never fails if its components and the reduction do not.
-/

namespace AbstractDomains

open ValueDomain

section Lattice

variable {α β V : Type} [DecidableEq α] [DecidableEq β] [AbstractLattice α] [AbstractLattice β]

/-- Whether a reduction keeps the values that both of two components stand for. -/
def Reduction.Keeps (r : Reduction α β) (γ : α → V → Prop) (δ : β → V → Prop) : Prop :=
  ∀ {a b c v}, r.reduce a b = .ok c → γ a v → δ b v → γ c.1 v ∧ δ c.2 v

theorem Reduction.none_keeps (γ : α → V → Prop) (δ : β → V → Prop) :
    (Reduction.none : Reduction α β).Keeps γ δ := by
  intro a b c v h ha hb
  obtain rfl := Except.ok.inj h
  exact ⟨ha, hb⟩

/-- A reduction that never fails and is never refused. -/
def Reduction.Total (r : Reduction α β) : Prop :=
  ∀ a b, ∃ c, r.reduce a b = .ok c ∧ componentwise c (a, b) = .ok true

namespace ReducedProduct

variable {r : Reduction α β} {γ : α → V → Prop} {δ : β → V → Prop} {v : V}

/-- The values that both components of a pair stand for. -/
def Contains (γ : α → V → Prop) (δ : β → V → Prop) (p : ReducedProduct r) (v : V) : Prop :=
  γ p.left v ∧ δ p.right v

variable [Describe α] [Describe β] {p q s : ReducedProduct r}

/-- A reduced pair is bottom because a component was, or it is made of what the reduction returned,
which is not above the components and is bottom as soon as either part of it is. -/
theorem pair_inv {a : α} {b : β} (h : pair a b = .ok p) :
    (p = .bottom ∧ (isBottom a = true ∨ isBottom b = true)) ∨
      ∃ c, r.reduce a b = .ok c ∧ componentwise c (a, b) = .ok true ∧
        ((p = .bottom ∧ (isBottom c.1 = true ∨ isBottom c.2 = true)) ∨ p = ⟨c.1, c.2⟩) := by
  unfold pair at h
  split at h
  · rename_i hb
    exact .inl ⟨(Except.ok.inj h).symm, Bool.or_eq_true_iff.mp hb⟩
  · obtain ⟨c, hc, h⟩ := Analysis.bind_eq_ok.mp h
    obtain ⟨below, hbelow, h⟩ := Analysis.bind_eq_ok.mp h
    cases below with
    | false => exact nomatch h
    | true =>
      refine .inr ⟨c, hc, hbelow, ?_⟩
      obtain rfl := Analysis.pure_eq_ok.mp h
      split
      · rename_i hb
        exact .inl ⟨rfl, Bool.or_eq_true_iff.mp hb⟩
      · exact .inr rfl

theorem both_inv {x : Analysis α} {y : Analysis β} (h : both x y = .ok p) :
    ∃ a b, x = .ok a ∧ y = .ok b ∧ pair a b = .ok p := by
  obtain ⟨a, hx, h⟩ := Analysis.bind_eq_ok.mp h
  obtain ⟨b, hy, h⟩ := Analysis.bind_eq_ok.mp h
  exact ⟨a, b, hx, hy, h⟩

/-- **Reduced pairs keep the values of both components**: neither component that stands for a value
counts as bottom, before the reduction or after it. -/
theorem contains_pair (hγ : ∀ {a}, isBottom a = true → ¬ γ a v)
    (hδ : ∀ {b}, isBottom b = true → ¬ δ b v) (hr : r.Keeps γ δ) {a : α} {b : β}
    (h : pair a b = .ok p) (ha : γ a v) (hb : δ b v) : p.Contains γ δ v := by
  rcases pair_inv h with ⟨-, hempty⟩ | ⟨c, hc, -, hp⟩
  · rcases hempty with hempty | hempty
    · exact absurd ha (hγ hempty)
    · exact absurd hb (hδ hempty)
  · have hcv := hr hc ha hb
    rcases hp with ⟨-, hempty | hempty⟩ | rfl
    · exact absurd hcv.1 (hγ hempty)
    · exact absurd hcv.2 (hδ hempty)
    · exact hcv

theorem contains_both (hγ : ∀ {a}, isBottom a = true → ¬ γ a v)
    (hδ : ∀ {b}, isBottom b = true → ¬ δ b v) (hr : r.Keeps γ δ) {x : Analysis α}
    {y : Analysis β} (h : both x y = .ok p) (hx : ∀ {a}, x = .ok a → γ a v)
    (hy : ∀ {b}, y = .ok b → δ b v) : p.Contains γ δ v := by
  obtain ⟨a, b, ha, hb, h⟩ := both_inv h
  exact contains_pair hγ hδ hr h (hx ha) (hy hb)

/-- An operation that covers both operands in each component covers both pairs. -/
theorem contains_upward (hγ : OperationsSound γ) (hδ : OperationsSound δ) (hr : r.Keeps γ δ)
    {f : α → α → Analysis α} {g : β → β → Analysis β}
    (hf : ∀ {a b c}, f a b = .ok c → γ a v ∨ γ b v → γ c v)
    (hg : ∀ {a b c}, g a b = .ok c → δ a v ∨ δ b v → δ c v)
    (h : AbstractLattice.upward (fun p q => both (f p.left q.left) (g p.right q.right)) p q = .ok s)
    (hv : p.Contains γ δ v ∨ q.Contains γ δ v) : s.Contains γ δ v := by
  refine covers_upward (γ := Contains γ δ) ?_ ?_ ?_ h hv
  · intro p hp hpv
    have hbottom : p = .bottom := of_decide_eq_true hp
    rw [hbottom] at hpv
    exact hγ.not_bottom v hpv.1
  · -- top stands for `v` because one of the operands does
    intro p hp
    have htop : p = .top := of_decide_eq_true hp
    rw [htop]
    exact ⟨hv.elim (fun h => hγ.below_top h.1) (fun h => hγ.below_top h.1),
      hv.elim (fun h => hδ.below_top h.2) (fun h => hδ.below_top h.2)⟩
  · intro p q s _ hs hpq
    exact contains_both hγ.empty hδ.empty hr hs (hf · (hpq.imp And.left And.left))
      (hg · (hpq.imp And.right And.right))

/-- **The operations of a product are sound** if those of its components are. -/
theorem operationsSound (hγ : OperationsSound γ) (hδ : OperationsSound δ) (hr : r.Keeps γ δ) :
    OperationsSound (Contains (r := r) γ δ) where
  isTop_top := decide_eq_true rfl
  not_bottom v h := hγ.not_bottom v h.1
  of_join := contains_upward hγ hδ hr hγ.of_join hδ.of_join
  of_widen := contains_upward hγ hδ hr hγ.of_widen hδ.of_widen
  of_meet := by
    refine keeps_downward (γ := Contains γ δ) ?_
    intro p q s _ hs hp hq
    exact contains_both hγ.empty hδ.empty hr hs (hγ.of_meet · hp.1 hq.1) (hδ.of_meet · hp.2 hq.2)

open Analysis (Succeeds succeeds_ok)

theorem pair_succeeds (hr : r.Total) (a : α) (b : β) :
    (pair a b : Analysis (ReducedProduct r)).Succeeds := by
  obtain ⟨c, hc, hbelow⟩ := hr a b
  unfold pair
  split
  · exact succeeds_ok _
  · rw [hc]
    show Succeeds (componentwise c (a, b) >>= _)
    rw [hbelow]
    exact succeeds_ok _

theorem both_succeeds (hr : r.Total) {x : Analysis α} {y : Analysis β} (hx : x.Succeeds)
    (hy : y.Succeeds) : (both x y : Analysis (ReducedProduct r)).Succeeds :=
  hx.bind fun a => hy.bind fun b => pair_succeeds hr a b

end ReducedProduct

end Lattice

namespace ReducedProduct

variable {α β V : Type} [DecidableEq α] [DecidableEq β] [ValueDomain α] [ValueDomain β]
  [Describe α] [Describe β] {r : Reduction α β} {S : Semantics V} {γ : α → V → Prop}
  {δ : β → V → Prop}

/-! ## Values -/

theorem evalSoundApartFromBinary (hγ : OperationsSound γ) (hδ : OperationsSound δ)
    (hr : r.Keeps γ δ) (hE : EvalSoundApartFromBinary S γ) (hF : EvalSoundApartFromBinary S δ) :
    EvalSoundApartFromBinary S (Contains (r := r) γ δ) where
  null h := contains_both hγ.empty hδ.empty hr h hE.null hF.null
  nonNull hne h := contains_both hγ.empty hδ.empty hr h (hE.nonNull hne) (hF.nonNull hne)
  variable_any h := contains_both hγ.empty hδ.empty hr h hE.variable_any hF.variable_any
  pushAny h hv := contains_both hγ.empty hδ.empty hr h (hE.pushAny · hv) (hF.pushAny · hv)
  unary h hp hw := contains_both hγ.empty hδ.empty hr h (hE.unary · hp.1 hw) (hF.unary · hp.2 hw)
  ternary h hp hq hs hx := contains_both hγ.empty hδ.empty hr h
    (hE.ternary · hp.1 hq.1 hs.1 hx) (hF.ternary · hp.2 hq.2 hs.2 hx)

/-- **The values found by a product are sound** if those found by its components are. -/
theorem evalSound (hγ : OperationsSound γ) (hδ : OperationsSound δ) (hr : r.Keeps γ δ)
    (hE : EvalSound S γ) (hF : EvalSound S δ) : EvalSound S (Contains (r := r) γ δ) :=
  (evalSoundApartFromBinary hγ hδ hr hE.apartFromBinary hF.apartFromBinary).evalSound
    fun h hp hq hw =>
      contains_both hγ.empty hδ.empty hr h (hE.binary · hp.1 hq.1 hw) (hF.binary · hp.2 hq.2 hw)

open Analysis (Succeeds succeeds_ok)

theorem either_succeeds {x y : Analysis Satisfiability} (hx : x.Succeeds) (hy : y.Succeeds) :
    (either x y).Succeeds :=
  hx.bind fun _ => hy.bind fun _ => succeeds_ok _

/-- **Products never fail** if their components, the reduction and its order do not. -/
theorem totalDomain (hα : TotalDomain α) (hβ : TotalDomain β) (hr : r.Total)
    (hleq : ∀ p q, (r.leq p q).Succeeds) : TotalDomain (ReducedProduct r) where
  null point := both_succeeds hr (hα.null point) (hβ.null point)
  nonNull value point := both_succeeds hr (hα.nonNull value point) (hβ.nonNull value point)
  unbound id point := both_succeeds hr (hα.unbound id point) (hβ.unbound id point)
  pushAny types point := both_succeeds hr (hα.pushAny types point) (hβ.pushAny types point)
  skip _ := succeeds_ok _
  unary op p point := both_succeeds hr (hα.unary op p.left point) (hβ.unary op p.right point)
  binary op p q point :=
    both_succeeds hr (hα.binary op p.left q.left point) (hβ.binary op p.right q.right point)
  ternary op p q s point := both_succeeds hr (hα.ternary op p.left q.left s.left point)
    (hβ.ternary op p.right q.right s.right point)
  answer_value p point :=
    either_succeeds (hα.answer_value p.left point) (hβ.answer_value p.right point)
  answer_unary op p point :=
    either_succeeds (hα.answer_unary op p.left point) (hβ.answer_unary op p.right point)
  answer_binary op p q point := by
    have hcomponents := either_succeeds (hα.answer_binary op p.left q.left point)
      (hβ.answer_binary op p.right q.right point)
    cases op
    case comparisonEq =>
      exact unequalIfIncomparable_succeeds
        (fun p q => hleq (p.left, p.right) (q.left, q.right)) p q
    all_goals exact hcomponents
  answer_ternary op p q s point :=
    either_succeeds (hα.answer_ternary op p.left q.left s.left point)
      (hβ.answer_ternary op p.right q.right s.right point)

end ReducedProduct

end AbstractDomains
