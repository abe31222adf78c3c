import AbstractDomains.Proofs.Numeric.Integers

/-!
# Equalities of pairs

A product refutes the equality of pairs that are incomparable in its order, whatever its components
say of it. Pairs are incomparable if their left or their right components are, and also if they
cross: each is strictly below the other on one side. Components that answer their own equalities
rightly vouch for the first two cases, and nothing does for the third.

Results:
* `PlainProduct.refuted_iff`: when an equality of pairs is refuted.
* `PlainProduct.refuted_pairs_right_iff`: when refuting an equality of pairs, or of variables, is
  right.
-/

namespace AbstractDomains

open ValueDomain

section Order

variable {α : Type} [DecidableEq α] [AbstractLattice α] {a b : α}

/-- Neither element is below the other. -/
def Incomparable (a b : α) : Prop :=
  leq a b = .ok false ∧ leq b a = .ok false

/-- The first element is below the second one, and not above it. -/
def StrictlyBelow (a b : α) : Prop :=
  leq a b = .ok true ∧ leq b a = .ok false

theorem unequalIfIncomparable_eq_notSatisfied :
    unequalIfIncomparable a b = .ok .notSatisfied ↔ Incomparable a b := by
  refine ⟨fun h => ?_, fun ⟨hab, hba⟩ => ?_⟩
  · rcases unequalIfIncomparable_inv h with h | ⟨-, h⟩
    · exact nomatch h
    · exact h
  · unfold unequalIfIncomparable
    rw [hab, hba]
    rfl

theorem Incomparable.proper (h : Incomparable a b) : Proper a b := by
  obtain ⟨hne, ha, hb⟩ := leq_eq_false h.1
  obtain ⟨-, hb', ha'⟩ := leq_eq_false h.2
  exact ⟨ha, hb', ha', hb, hne⟩

variable (α) in
/-- An order that is decided on all elements, with its extreme elements where they belong. -/
structure DecidedOrder : Prop where
  succeeds : ∀ a b : α, (leq a b).Succeeds
  isBottom_bottom : isBottom (bottom : α) = true
  isTop_top : isTop (top : α) = true

theorem DecidedOrder.bottom_leq (h : DecidedOrder α) (a : α) : leq bottom a = .ok true :=
  if_pos (by simp [h.isBottom_bottom])

theorem DecidedOrder.leq_top (h : DecidedOrder α) (a : α) : leq a top = .ok true :=
  if_pos (by simp [h.isTop_top])

end Order

section Hooks

variable {α V : Type} [DecidableEq α] [ValueDomain α]

/-- What a component owes to the equalities of a product: its own equality test refutes only
elements without a common value. -/
structure EqualitySound (γ : α → V → Prop) : Prop extends DecidedOrder α where
  empty : ∀ {a v}, isBottom a = true → ¬ γ a v
  variable_any : ∀ {id point a v}, evalVariable id point = .ok a → γ a v
  refuted : ∀ {a b point v}, satisfiesBinary .comparisonEq a b point = .ok .notSatisfied →
    γ a v → ¬ γ b v

/-- Incomparable elements whose equality the domain itself does not refute. -/
def Spared (point : ProgramPoint) (a b : α) : Prop :=
  Incomparable a b ∧ satisfiesBinary .comparisonEq a b point ≠ .ok .notSatisfied

end Hooks

/-! ## Incomparable pairs -/

section Lattice

variable {α β : Type} [DecidableEq α] [DecidableEq β] [AbstractLattice α] [AbstractLattice β]

theorem componentwise_eq_false (hα : DecidedOrder α) {p q : α × β} :
    componentwise p q = .ok false ↔ leq p.1 q.1 = .ok false ∨ leq p.2 q.2 = .ok false := by
  obtain ⟨x, hx⟩ := hα.succeeds p.1 q.1
  unfold componentwise
  rw [hx]
  cases x with
  | false => exact iff_of_true rfl (.inl rfl)
  | true => exact (or_iff_right nofun).symm

namespace PlainProduct

/-- Each pair is sharper than the other one on one side. -/
def Crossed (p q : PlainProduct α β) : Prop :=
  (StrictlyBelow p.left q.left ∧ StrictlyBelow q.right p.right) ∨
    (StrictlyBelow q.left p.left ∧ StrictlyBelow p.right q.right)

variable [Describe α] [Describe β] {p q : PlainProduct α β}

/-- Pairs that are not in order on some side, either way, are distinct and not extreme. -/
theorem proper_of_componentwise (hα : DecidedOrder α) (hβ : DecidedOrder β)
    (hpq : componentwise (p.left, p.right) (q.left, q.right) = .ok false)
    (hqp : componentwise (q.left, q.right) (p.left, p.right) = .ok false) : Proper p q := by
  rw [componentwise_eq_false hα] at hpq hqp
  have hbottom : ∀ p q : PlainProduct α β,
      leq p.left q.left = .ok false ∨ leq p.right q.right = .ok false → p ≠ .bottom := by
    rintro p q h rfl
    rcases h with h | h
    · exact nomatch (hα.bottom_leq q.left).symm.trans h
    · exact nomatch (hβ.bottom_leq q.right).symm.trans h
  have htop : ∀ p q : PlainProduct α β,
      leq p.left q.left = .ok false ∨ leq p.right q.right = .ok false → q ≠ .top := by
    rintro p q h rfl
    rcases h with h | h
    · exact nomatch (hα.leq_top p.left).symm.trans h
    · exact nomatch (hβ.leq_top p.right).symm.trans h
  refine ⟨decide_eq_false (hbottom p q hpq), decide_eq_false (hbottom q p hqp),
    decide_eq_false (htop q p hqp), decide_eq_false (htop p q hpq), ?_⟩
  rintro rfl
  rcases hpq with h | h
  · exact nomatch (leq_self p.left).symm.trans h
  · exact nomatch (leq_self p.right).symm.trans h

theorem incomparable_iff (hα : DecidedOrder α) (hβ : DecidedOrder β) :
    Incomparable p q ↔ (leq p.left q.left = .ok false ∨ leq p.right q.right = .ok false) ∧
      (leq q.left p.left = .ok false ∨ leq q.right p.right = .ok false) := by
  refine ⟨fun h => ?_, fun ⟨hpq, hqp⟩ => ?_⟩
  · obtain ⟨hpq, hqp⟩ := h
    have hproper : Proper p q := Incomparable.proper ⟨hpq, hqp⟩
    rw [hproper.leq_eq] at hpq
    rw [hproper.symm.leq_eq] at hqp
    exact ⟨(componentwise_eq_false hα).mp hpq, (componentwise_eq_false hα).mp hqp⟩
  · have hpq : componentwise (p.left, p.right) (q.left, q.right) = .ok false :=
      (componentwise_eq_false hα).mpr hpq
    have hqp : componentwise (q.left, q.right) (p.left, p.right) = .ok false :=
      (componentwise_eq_false hα).mpr hqp
    have hproper : Proper p q := proper_of_componentwise hα hβ hpq hqp
    exact ⟨hproper.leq_eq.trans hpq, hproper.symm.leq_eq.trans hqp⟩

/-- **Pairs are incomparable** because their components are, on either side, or because they
cross. -/
theorem incomparable_iff_crossed (hα : DecidedOrder α) (hβ : DecidedOrder β) :
    Incomparable p q ↔
      Incomparable p.left q.left ∨ Incomparable p.right q.right ∨ Crossed p q := by
  rw [incomparable_iff hα hβ]
  obtain ⟨x, hx⟩ := hα.succeeds p.left q.left
  obtain ⟨y, hy⟩ := hα.succeeds q.left p.left
  obtain ⟨z, hz⟩ := hβ.succeeds p.right q.right
  obtain ⟨w, hw⟩ := hβ.succeeds q.right p.right
  unfold Crossed Incomparable StrictlyBelow
  rw [hx, hy, hz, hw]
  -- what is left are the answers of four comparisons
  cases x <;> cases y <;> cases z <;> cases w <;> simp

end PlainProduct

end Lattice

namespace PlainProduct

open ReducedProduct (Contains contains_both)

section Values

variable {α β V : Type} [DecidableEq α] [DecidableEq β] [ValueDomain α] [ValueDomain β]
  [Describe α] [Describe β] {γ : α → V → Prop} {δ : β → V → Prop} {p q : PlainProduct α β}
  {point : ProgramPoint} {v : V}

/-- **When an equality of pairs is refuted**, whatever the components say of it. -/
theorem refuted_iff (hα : DecidedOrder α) (hβ : DecidedOrder β) :
    satisfiesBinary .comparisonEq p q point = .ok .notSatisfied ↔
      Incomparable p.left q.left ∨ Incomparable p.right q.right ∨ Crossed p q :=
  unequalIfIncomparable_eq_notSatisfied.trans (incomparable_iff_crossed hα hβ)

/-- The equalities of pairs that no component vouches for: the pairs cross, or components are
incomparable and the domain they are of does not take them for unequal. -/
def Unvouched (point : ProgramPoint) (p q : PlainProduct α β) : Prop :=
  Crossed p q ∨ Spared point p.left q.left ∨ Spared point p.right q.right

theorem Unvouched.refuted (hα : DecidedOrder α) (hβ : DecidedOrder β) (h : Unvouched point p q) :
    satisfiesBinary .comparisonEq p q point = .ok .notSatisfied := by
  rw [refuted_iff hα hβ]
  rcases h with h | h | h
  · exact .inr (.inr h)
  · exact .inl h.1
  · exact .inr (.inl h.1)

/-- Pairs whose equality is refuted share a value only if no component vouches for it. -/
theorem unvouched_of_shared (hγ : EqualitySound γ) (hδ : EqualitySound δ)
    (h : satisfiesBinary .comparisonEq p q point = .ok .notSatisfied) (hp : p.Contains γ δ v)
    (hq : q.Contains γ δ v) : Unvouched point p q := by
  rcases (refuted_iff hγ.toDecidedOrder hδ.toDecidedOrder).mp h with h | h | h
  · exact .inr (.inl ⟨h, fun hrefuted => hγ.refuted hrefuted hp.1 hq.1⟩)
  · exact .inr (.inr ⟨h, fun hrefuted => hδ.refuted hrefuted hp.2 hq.2⟩)
  · exact .inl h

/-! ## Equalities of variables -/

variable {env : Environment (PlainProduct α β)} {ρ : Store V} {x y : Identifier}
  {tx ty types : TypeSet}

theorem contains_variable (hγ : EqualitySound γ) (hδ : EqualitySound δ)
    (hρ : env.Describes (Contains γ δ) ρ) (h : env.eval (.var x tx) point = .ok p) :
    p.Contains γ δ (ρ x) := by
  have hany : ∀ {id point p v}, evalVariable id point = .ok p → Contains γ δ p v := fun h =>
    contains_both hγ.empty hδ.empty (Reduction.none_keeps γ δ) h hγ.variable_any hδ.variable_any
  cases env with
  | bottom => exact hρ.elim
  | entries m => exact valueOf_sound hany hρ h

theorem isBottom_eq_false (hγ : EqualitySound γ) (hp : p.Contains γ δ v) : isBottom p = false := by
  refine decide_eq_false ?_
  rintro rfl
  exact hγ.empty hγ.isBottom_bottom hp.1

/-- The answer for an equality of variables is that for the pairs found for them: neither is bottom
where a store is described. -/
theorem satisfies_variables (hγ : EqualitySound γ) (hδ : EqualitySound δ)
    (hρ : env.Describes (Contains γ δ) ρ) (hp : env.eval (.var x tx) point = .ok p)
    (hq : env.eval (.var y ty) point = .ok q) :
    env.satisfies (.binary .comparisonEq (.var x tx) (.var y ty) types) point =
      satisfiesBinary .comparisonEq p q point := by
  have hpb : isBottom p = false := isBottom_eq_false hγ (contains_variable hγ hδ hρ hp)
  have hqb : isBottom q = false := isBottom_eq_false hγ (contains_variable hγ hδ hρ hq)
  rw [Environment.satisfies_equality hρ.ne_bottom, hp, hq]
  simp only [bind, Except.bind, hpb, hqb, Bool.or_false, Bool.false_eq_true, if_false]

/-- The variables of an equality that is refuted have values. -/
theorem variables_found (henv : env ≠ .bottom)
    (h : env.satisfies (.binary .comparisonEq (.var x tx) (.var y ty) types) point =
      .ok .notSatisfied) :
    ∃ p q, env.eval (.var x tx) point = .ok p ∧ env.eval (.var y ty) point = .ok q := by
  rw [Environment.satisfies_equality henv] at h
  obtain ⟨p, hp, h⟩ := Analysis.bind_eq_ok.mp h
  obtain ⟨q, hq, -⟩ := Analysis.bind_eq_ok.mp h
  exact ⟨p, q, hp, hq⟩

/-- **When refuting an equality of pairs is right.** The pairs then must not share a value, and
where the equality of two variables is assumed no described store may give them one value. For
components that refute their own equalities rightly, this holds except where a value is shared and
no component vouches for the equality: the pairs cross, or their components are spared. -/
theorem refuted_pairs_right_iff (hγ : EqualitySound γ) (hδ : EqualitySound δ) :
    (∀ (p q : PlainProduct α β) (point : ProgramPoint),
      (satisfiesBinary .comparisonEq p q point = .ok .notSatisfied →
          ∀ v, p.Contains γ δ v → ¬ q.Contains γ δ v) ↔
        ¬ (Unvouched point p q ∧ ∃ v, p.Contains γ δ v ∧ q.Contains γ δ v)) ∧
    ∀ (env : Environment (PlainProduct α β)) (x y : Identifier) (tx ty types : TypeSet)
      (point : ProgramPoint),
      (env.satisfies (.binary .comparisonEq (.var x tx) (.var y ty) types) point =
            .ok .notSatisfied →
          env.assume (.binary .comparisonEq (.var x tx) (.var y ty) types) point = .ok .bottom ∧
          ∀ ρ, env.Describes (Contains γ δ) ρ → ρ x ≠ ρ y) ↔
        ¬ ∃ p q, env.eval (.var x tx) point = .ok p ∧ env.eval (.var y ty) point = .ok q ∧
          Unvouched point p q ∧ ∃ ρ, env.Describes (Contains γ δ) ρ ∧ ρ x = ρ y := by
  have hα := hγ.toDecidedOrder
  have hβ := hδ.toDecidedOrder
  refine ⟨fun p q point => ⟨fun h hshared => ?_, fun h hrefuted v hp hq => ?_⟩,
    fun env x y tx ty types point => ⟨fun h hshared => ?_, fun h hrefuted => ?_⟩⟩
  · obtain ⟨hunvouched, v, hp, hq⟩ := hshared
    exact h (hunvouched.refuted hα hβ) v hp hq
  · exact h ⟨unvouched_of_shared hγ hδ hrefuted hp hq, v, hp, hq⟩
  · obtain ⟨p, q, hp, hq, hunvouched, ρ, hρ, hxy⟩ := hshared
    refine (h ?_).2 ρ hρ hxy
    rw [satisfies_variables hγ hδ hρ hp hq]
    exact hunvouched.refuted hα hβ
  · refine ⟨Environment.assume_of_refuted hrefuted, fun ρ hρ hxy => ?_⟩
    obtain ⟨p, q, hp, hq⟩ := variables_found hρ.ne_bottom hrefuted
    rw [satisfies_variables hγ hδ hρ hp hq] at hrefuted
    have hpv : p.Contains γ δ (ρ x) := contains_variable hγ hδ hρ hp
    have hqv : q.Contains γ δ (ρ x) := hxy ▸ contains_variable hγ hδ hρ hq
    exact h ⟨p, q, hp, hq, unvouched_of_shared hγ hδ hrefuted hpv hqv, ρ, hρ, hxy⟩

end Values

end PlainProduct

/-! ## Signs and parities -/

/-- What signs stand for where none but top stands for zero. -/
def Sign.ContainsNonzero (s : Sign) (v : Value Int) : Prop :=
  s = .top ∨ (s.Contains v ∧ v ≠ .number 0)

theorem Sign.refuted_of_incomparable {s t : Sign} {point : ProgramPoint} (h : Incomparable s t) :
    ValueDomain.satisfiesBinary .comparisonEq s t point = .ok .notSatisfied := by
  show satisfiesBinary .comparisonEq s t = _
  rw [satisfiesBinary_eq, if_neg, unequalIfIncomparable_eq_notSatisfied]
  · exact h
  · rintro ⟨rfl, rfl⟩
    exact nomatch h.1

/-- Incomparable signs share nothing but zero, so the equality test of signs is right about all
other numbers. -/
theorem Sign.equalitySound : EqualitySound ContainsNonzero where
  succeeds s t := ⟨_, leq_eq_below s t⟩
  isBottom_bottom := rfl
  isTop_top := rfl
  empty {s v} h := by
    obtain rfl : s = .bottom := of_decide_eq_true h
    rintro (h | h)
    · exact nomatch h
    · exact h.1
  variable_any h := .inl (Except.ok.inj h).symm
  refuted {s t point v} h hs ht := by
    change satisfiesBinary .comparisonEq s t = _ at h
    rw [satisfiesBinary_eq] at h
    have hst : Incomparable s t := by
      split at h
      · exact nomatch h
      · exact unequalIfIncomparable_eq_notSatisfied.mp h
    rcases hs with rfl | ⟨hs, hv⟩
    · exact absurd hst.proper.left_top nofun
    · rcases ht with rfl | ⟨ht, -⟩
      · exact absurd hst.proper.right_top nofun
      · exact hv (shared_of_incomparable hst.1 hst.2 hs ht).2

theorem Parity.equalitySound : EqualitySound (Contains isOddInt) where
  succeeds := leq_succeeds fun _ _ => Analysis.succeeds_ok _
  isBottom_bottom := rfl
  isTop_top := rfl
  empty h := latticeSound.empty h
  variable_any h := Except.ok.inj h ▸ trivial
  refuted {p q _ _} h hp := by
    have hpq : Proper p q := (unequalIfIncomparable_eq_notSatisfied.mp h).proper
    exact disjoint_of_ne hpq.ne (of_decide_eq_false hpq.left_top) (of_decide_eq_false hpq.right_top)
      hp

namespace PlainProduct

/-- What a sign and a parity both stand for, where no sign but top stands for zero. -/
abbrev ContainsNonzero : PlainProduct Sign Parity → Value Int → Prop :=
  ReducedProduct.Contains Sign.ContainsNonzero (Parity.Contains isOddInt)

/-- Whether `x` and `y` are equal. -/
def equality : Expr :=
  .binary .comparisonEq (.var "x" (.single .numeric)) (.var "y" (.single .numeric))
    (.single .boolean)

/-- Numbers of opposite signs are unequal, as the signs say themselves. -/
theorem refuted_pairs_right_of_opposites :
    let p : PlainProduct Sign Parity := ⟨.minus, .top⟩
    let q : PlainProduct Sign Parity := ⟨.plus, .odd⟩
    let env : Environment (PlainProduct Sign Parity) :=
      .entries (.ofList [("x", ⟨.minus, .top⟩), ("y", ⟨.plus, .odd⟩)])
    EqualitySound Sign.ContainsNonzero ∧ EqualitySound (Parity.Contains isOddInt) ∧
      ValueDomain.satisfiesBinary .comparisonEq p q ⟨"test"⟩ = .ok .notSatisfied ∧
      (∀ v, ContainsNonzero p v → ¬ ContainsNonzero q v) ∧
      env.assume equality ⟨"test"⟩ = .ok .bottom ∧
      ∀ ρ, env.Describes ContainsNonzero ρ → ρ "x" ≠ ρ "y" := by
  intro p q env
  have hpq : ¬ Unvouched ⟨"test"⟩ p q := by
    rintro ((⟨h, -⟩ | ⟨h, -⟩) | h | h)
    · exact nomatch h.1
    · exact nomatch h.1
    · exact h.2 (Sign.refuted_of_incomparable h.1)
    · exact nomatch h.1.2
  have hrefuted : ValueDomain.satisfiesBinary .comparisonEq p q ⟨"test"⟩ = .ok .notSatisfied := rfl
  have hsat : env.satisfies equality ⟨"test"⟩ = .ok .notSatisfied := rfl
  obtain ⟨hpairs, hvariables⟩ :=
    refuted_pairs_right_iff Sign.equalitySound Parity.equalitySound
  have hright := (hvariables env "x" "y" _ _ _ ⟨"test"⟩).mpr ?_ hsat
  · exact ⟨Sign.equalitySound, Parity.equalitySound, hrefuted,
      (hpairs p q ⟨"test"⟩).mpr (fun h => hpq h.1) hrefuted, hright⟩
  · rintro ⟨p', q', hp, hq, hunvouched, -⟩
    obtain rfl := Except.ok.inj hp
    obtain rfl := Except.ok.inj hq
    exact hpq hunvouched

/-- One is odd and one is positive, so two variables of which only this is known can be equal, and
their equality is refuted. -/
theorem refuted_equality_of_ones :
    let p : PlainProduct Sign Parity := ⟨.top, .odd⟩
    let q : PlainProduct Sign Parity := ⟨.plus, .top⟩
    let env : Environment (PlainProduct Sign Parity) :=
      .entries (.ofList [("x", ⟨.top, .odd⟩), ("y", ⟨.plus, .top⟩)])
    let ρ : Store (Value Int) := fun _ => .number 1
    EqualitySound Sign.ContainsNonzero ∧ EqualitySound (Parity.Contains isOddInt) ∧
      p ≠ .bottom ∧ q ≠ .bottom ∧
      ValueDomain.satisfiesBinary .comparisonEq p q ⟨"test"⟩ = .ok .notSatisfied ∧
      ContainsNonzero p (.number 1) ∧ ContainsNonzero q (.number 1) ∧
      env.assume equality ⟨"test"⟩ = .ok .bottom ∧ env.Describes ContainsNonzero ρ ∧
      (Arithmetic.truncating.semantics (.undefined Int)).Evaluates ρ equality (.bool true) := by
  intro p q env ρ
  have hp : ContainsNonzero p (.number 1) := ⟨.inl rfl, rfl⟩
  have hq : ContainsNonzero q (.number 1) :=
    ⟨.inr ⟨show (0 : Int) < 1 by decide, nofun⟩, trivial⟩
  have hρ : env.Describes ContainsNonzero ρ := by
    refine Pointwise.describes_ofList fun e he => ?_
    rcases List.mem_pair.mp he with rfl | rfl
    · exact hp
    · exact hq
  have hx : (Arithmetic.truncating.semantics (.undefined Int)).Evaluates ρ equality (.bool true) :=
    .binary (Arithmetic.evaluates_var rfl) (Arithmetic.evaluates_var rfl) rfl
      (TypeSet.admits_single .boolean)
  have hsat : env.satisfies equality ⟨"test"⟩ = .ok .notSatisfied := rfl
  exact ⟨Sign.equalitySound, Parity.equalitySound, by decide, by decide, rfl, hp, hq,
    Environment.assume_of_refuted hsat, hρ, hx⟩

end PlainProduct

end AbstractDomains
