import AbstractDomains.Proofs.Reached

/-!
# When an iteration may stop at the order

An iteration that finds its new environment below the old one may stop if joining the new one would
change nothing. That is so whenever the order is the one of joins, as for signs and for parities.
Pairs of both are joined in each component, but compared by their parities first: one with a known
parity is below every pair without one, whatever their signs (`BelowByParityAlone`). An iteration
that stops there has not seen all numbers of the new pair.

Results:
* `SignParity.orderOn`, `SignParity.leqDecides`: comparing parities first is a partial order still,
  and the one that is decided.
* `SignParity.join_eq_right_iff`: where the order says below, joining changes nothing iff no
  variable is below by its parity alone.
* `Environment.leq_conclusive`: the answer for all three domains.
-/

namespace AbstractDomains

namespace Environment

variable {α : Type} [DecidableEq α] [ValueDomain α] {P : α → Prop} {R : α → α → Prop}
  {a b : Environment α}

/-- Joining a reached environment changes nothing iff all variables read below. -/
theorem join_eq_right_iff (hD : DomainOn P R) (ha : a.Reached P) (hb : b.Reached P) :
    join a b = .ok b ↔ Pointwise.ReadsBelow R a b :=
  (Pointwise.latticeOrder hD.toLatticeOrder).join_eq_right_iff (ha.canonical hD) (hb.canonical hD)

/-- **The order is conclusive** if it is the one of joins. -/
theorem join_eq_right_of_leq (hD : DomainOn P R) (hleq : LeqDecides P R) (ha : a.Reached P)
    (hb : b.Reached P) (h : leq a b = .ok true) : join a b = .ok b := by
  have hleq : LeqDecides (Pointwise.Canonical P : Environment α → Prop) (Pointwise.ReadsBelow R) :=
    Pointwise.leqDecides hD.toOrderOn hleq
  exact (join_eq_right_iff hD ha hb).mpr
    ((hleq.below_iff (ha.canonical hD) (hb.canonical hD)).mp h)

end Environment

namespace SignParity

open ReducedProduct (ComponentsBelow)

variable {p q : SignParity}

/-- The parity of `p` is below that of `q`, and the signs are in order if the parities are equal. -/
def ByParity (p q : SignParity) : Prop :=
  p.right ≠ q.right ∧ p.right.IsBelow q.right ∨ p.right = q.right ∧ p.left.below q.left = true

/-- The parity of `p` is known, the one of `q` is not, and `q` does not include the sign of `p`. -/
def BelowByParityAlone (p q : SignParity) : Prop :=
  p.right.isConcrete = true ∧ q.right = .top ∧ p.left.below q.left = false

theorem componentsBelow_iff :
    ComponentsBelow p q ↔ p.left.below q.left = true ∧ p.right.IsBelow q.right :=
  and_congr (Sign.leqDecides.below_iff trivial trivial)
    (Parity.leqDecides.below_iff trivial trivial)

/-- **Comparing parities first** is a partial order. -/
theorem orderOn : OrderOn Built ByParity where
  bottom_mem := domainOn.bottom_mem
  top_mem := domainOn.top_mem
  bottom_ne_top := domainOn.bottom_ne_top
  isBottom_iff := domainOn.isBottom_iff
  isTop_iff := domainOn.isTop_iff
  refl _ := .inr ⟨rfl, Sign.orderOn.refl trivial⟩
  antisymm _ _ hpq hqp := by
    rcases hpq with ⟨hne, hpq⟩ | ⟨heq, hpq⟩
    · rcases hqp with ⟨-, hqp⟩ | ⟨heq, -⟩
      · exact absurd (Parity.orderOn.antisymm trivial trivial hpq hqp) hne
      · exact absurd heq.symm hne
    · rcases hqp with ⟨hne, -⟩ | ⟨-, hqp⟩
      · exact absurd heq.symm hne
      · exact ReducedProduct.ext (Sign.orderOn.antisymm trivial trivial hpq hqp) heq
  trans _ _ _ hpq hqs := by
    rcases hpq with ⟨hne, hpq⟩ | ⟨heq, hpq⟩
    · rcases hqs with ⟨-, hqs⟩ | ⟨heq, -⟩
      · refine .inl ⟨fun h => hne ?_, Parity.orderOn.trans trivial trivial trivial hpq hqs⟩
        exact Parity.orderOn.antisymm trivial trivial hpq (h ▸ hqs)
      · exact .inl (heq ▸ ⟨hne, hpq⟩)
    · rcases hqs with hqs | ⟨heq', hqs⟩
      · exact .inl (heq ▸ hqs)
      · exact .inr ⟨heq.trans heq', Sign.orderOn.trans trivial trivial trivial hpq hqs⟩
  bottom_le {p} _ := by
    by_cases h : p.right = .bottom
    · exact .inr ⟨h.symm, Sign.orderOn.bottom_le trivial⟩
    · exact .inl ⟨Ne.symm h, Parity.orderOn.bottom_le trivial⟩
  le_top {p} _ := by
    by_cases h : p.right = .top
    · exact .inr ⟨h, Sign.orderOn.le_top trivial⟩
    · exact .inl ⟨h, Parity.orderOn.le_top trivial⟩

/-! ## The order that is decided -/

theorem leq_of_eq (s t : Sign) (a : Parity) : leq (s, a) (t, a) = AbstractLattice.leq s t := by
  cases a <;> rfl

theorem leq_of_ne (s t : Sign) {a b : Parity} (h : a ≠ b) :
    leq (s, a) (t, b) = .ok (decide (b = .top)) := by
  cases b with
  | top =>
    cases a with
    | top => exact absurd rfl h
    | bottom | even | odd => rfl
  | bottom | even | odd =>
    cases a with
    | top => rfl
    | bottom | even | odd =>
      unfold leq
      exact if_neg h

/-- A built pair without a parity is bottom. -/
theorem Built.eq_bottom (hp : Built p) (h : p.right = .bottom) : p = .bottom := by
  rcases built_iff.mp hp with rfl | hp
  · exact nomatch h
  · exact hp.eq_bottom Sign.latticeOn Parity.latticeOn (.inr h)

/-- **The order of pairs compares parities first.** -/
theorem leqDecides : LeqDecides Built ByParity := by
  refine orderOn.leqDecides_of_proper fun {p q} hp _ hpq => ?_
  show ∃ x, leq (p.left, p.right) (q.left, q.right) = .ok x ∧ _
  by_cases heq : p.right = q.right
  · rw [heq, leq_of_eq, Sign.leq_eq_below]
    refine ⟨_, rfl, fun h => .inr ⟨heq, h⟩, ?_⟩
    rintro (⟨hne, -⟩ | ⟨-, h⟩)
    · exact absurd heq hne
    · exact h
  · rw [leq_of_ne p.left q.left heq]
    refine ⟨_, rfl, decide_eq_true_iff.trans ⟨fun h => .inl ⟨heq, .inr (.inr h)⟩, ?_⟩⟩
    rintro (⟨-, h | h | h⟩ | ⟨h, -⟩)
    · exact absurd h heq
    · exact absurd (hp.eq_bottom h) (of_decide_eq_false hpq.left_bottom)
    · exact h
    · exact absurd h heq

/-- Pairs in order are so in both components, unless the parity alone settles it. -/
theorem componentsBelow_iff_not_alone (hp : Built p) (hpq : ByParity p q) :
    ComponentsBelow p q ↔ ¬ BelowByParityAlone p q := by
  rw [componentsBelow_iff]
  refine ⟨fun ⟨hleft, _⟩ hnot => (nomatch hleft.symm.trans hnot.2.2), fun hnot => ?_⟩
  rcases hpq with ⟨hne, hright⟩ | ⟨heq, hleft⟩
  · refine ⟨by_contra fun hleft => ?_, hright⟩
    rcases hright with h | h | h
    · exact hne h
    · rw [hp.eq_bottom h] at hleft
      exact hleft (Sign.orderOn.bottom_le trivial)
    · refine hnot ⟨?_, h, Bool.eq_false_iff.mpr hleft⟩
      cases hparity : p.right with
      | bottom =>
        rw [hp.eq_bottom hparity] at hleft
        exact absurd (Sign.orderOn.bottom_le trivial) hleft
      | even | odd => rfl
      | top => exact absurd (hparity.trans h.symm) hne
  · exact ⟨hleft, .inl heq⟩

/-- **What an iteration on pairs misses**: where the order says below, joining changes nothing iff
no variable is below by its parity alone. -/
theorem join_eq_right_iff {a b : Environment SignParity} (ha : a.Reached Built)
    (hb : b.Reached Built) (h : AbstractDomains.leq a b = .ok true) :
    join a b = .ok b ↔ ∀ id, ¬ BelowByParityAlone (a.read id) (b.read id) := by
  have hleq : LeqDecides (Pointwise.Canonical Built : Environment SignParity → Prop)
      (Pointwise.ReadsBelow ByParity) := Pointwise.leqDecides orderOn leqDecides
  have hcanonical := ha.canonical domainOn
  rw [Environment.join_eq_right_iff domainOn ha hb]
  rcases (hleq.below_iff hcanonical (hb.canonical domainOn)).mp h with rfl | ⟨hne, hreads⟩
  · exact iff_of_true (.inl rfl) fun id hid => nomatch hid.1
  · have hpairs : ∀ id, ComponentsBelow (a.read id) (b.read id) ↔
        ¬ BelowByParityAlone (a.read id) (b.read id) := fun id =>
      componentsBelow_iff_not_alone (hcanonical.read_mem orderOn id) (hreads id)
    refine ⟨fun hbelow id => ?_, fun hnot => .inr ⟨hne, fun id => (hpairs id).mpr (hnot id)⟩⟩
    rcases hbelow with rfl | ⟨-, hbelow⟩
    · exact fun hid => nomatch hid.1
    · exact (hpairs id).mp (hbelow id)

end SignParity

/-- **When the order may end an iteration.** For signs and for parities always: joining an
environment that is below another one changes nothing. For pairs of both it does so exactly if no
variable is below by its parity alone. -/
theorem Environment.leq_conclusive :
    (∀ a b : Environment Sign, a.Reached (fun _ => True) → b.Reached (fun _ => True) →
      leq a b = .ok true → join a b = .ok b) ∧
    (∀ a b : Environment Parity, a.Reached (fun _ => True) → b.Reached (fun _ => True) →
      leq a b = .ok true → join a b = .ok b) ∧
    ∀ a b : Environment SignParity, a.Reached SignParity.Built → b.Reached SignParity.Built →
      leq a b = .ok true → (join a b).Succeeds ∧
        (join a b = .ok b ↔ ∀ id, ¬ SignParity.BelowByParityAlone (a.read id) (b.read id)) := by
  refine ⟨fun a b => join_eq_right_of_leq Sign.domainOn Sign.leqDecides,
    fun a b => join_eq_right_of_leq Parity.domainOn Parity.leqDecides, fun a b ha hb h => ?_⟩
  have hlattice : LatticeOrder
      (Pointwise.Canonical SignParity.Built : Environment SignParity → Prop)
      (Pointwise.ReadsBelow ReducedProduct.ComponentsBelow) :=
    Pointwise.latticeOrder SignParity.domainOn.toLatticeOrder
  obtain ⟨c, hc, -⟩ := hlattice.exists_join (ha.canonical SignParity.domainOn)
    (hb.canonical SignParity.domainOn)
  exact ⟨⟨c, hc⟩, SignParity.join_eq_right_iff ha hb h⟩

/-- Knowing `x` to be positive, and odd, is joined to knowing only that it is not negative. -/
theorem Environment.leq_conclusive_of_positive :
    let a : Environment Sign := Pointwise.set .top "x" .plus
    let b : Environment Sign := Pointwise.set .top "x" .zeroPlus
    let a' : Environment SignParity := Pointwise.set .top "x" ⟨.plus, .odd⟩
    let b' : Environment SignParity := Pointwise.set .top "x" ⟨.zeroPlus, .top⟩
    leq a b = .ok true ∧ join a b = .ok b ∧ leq a' b' = .ok true ∧ join a' b' = .ok b' ∧
      ∀ id, ¬ SignParity.BelowByParityAlone (a'.read id) (b'.read id) := by
  intro a b a' b'
  obtain ⟨hsign, -, hpair⟩ := leq_conclusive
  have hab : leq a b = .ok true := rfl
  have hab' : leq a' b' = .ok true := rfl
  have hjoin : join a' b' = .ok b' := rfl
  have ha' : a'.Reached SignParity.Built :=
    .set "x" .top (.pair (a := .plus) (b := .odd) trivial trivial rfl)
  have hb' : b'.Reached SignParity.Built :=
    .set "x" .top (.pair (a := .zeroPlus) (b := .top) trivial trivial rfl)
  exact ⟨hab, hsign a b (.set "x" .top trivial) (.set "x" .top trivial) hab, hab', hjoin,
    (hpair a' b' ha' hb' hab').2.mp hjoin⟩

/-- After `x := 7` the pair of `x` is below the one after `x := -4 / 2`, as only the first parity is
known; joining them loses the sign. -/
theorem SignParity.leq_not_conclusive :
    let number := TypeSet.single .numeric
    let quotient : Expr :=
      .binary .numericDiv (.constant (.int (-4)) number) (.constant (.int 2) number) number
    let a : Environment SignParity := .entries (.ofList [("x", ⟨.plus, .odd⟩)])
    let b : Environment SignParity := .entries (.ofList [("x", ⟨.minus, .top⟩)])
    Environment.assign .top "x" (.constant (.int 7) number) ⟨"a"⟩ = .ok a ∧
      Environment.assign .top "x" quotient ⟨"b"⟩ = .ok b ∧
      a.Reached Built ∧ b.Reached Built ∧
      AbstractDomains.leq a b = .ok true ∧ join a b = .ok .top ∧ join a b ≠ .ok b := by
  intro number quotient a b
  have ha : Environment.assign .top "x" (.constant (.int 7) number) ⟨"a"⟩ = .ok a := rfl
  have hb : Environment.assign .top "x" quotient ⟨"b"⟩ = .ok b := by decide +kernel
  have hjoin : join a b = .ok .top := rfl
  refine ⟨ha, hb, .assign .top ha, .assign .top hb, rfl, hjoin, fun h => ?_⟩
  have hx : none = some (⟨.minus, .top⟩ : SignParity) :=
    congrArg (Pointwise.get? · "x") (Except.ok.inj (hjoin.symm.trans h))
  exact nomatch hx

end AbstractDomains
