import AbstractDomains.Proofs.Numeric.Integers

/-!
# Products of products

A product meets the conditions it sets its components, so it can be a component itself. `agree`
reduces a sign-parity pair and another parity of the same numbers.

Results:
* `ReducedProduct.product_sound`: evaluation, joins, widening and meets of a product are sound, and
  the product is fit for another one.
-/

namespace AbstractDomains

namespace ReducedProduct

variable {α β V : Type} [DecidableEq α] [DecidableEq β] [ValueDomain α] [ValueDomain β]
  [Describe α] [Describe β] {r : Reduction α β} {S : Semantics V} {γ : α → V → Prop}
  {δ : β → V → Prop}

/-- **Products are sound if their components are and the reduction drops no value.** What is found
for an expression covers every value it can take, in every store the values of the variables
describe; a join or a widening covers both operands and a meet what they share. The product meets
the conditions on its components again. -/
theorem product_sound (hγ : OperationsSound γ) (hδ : OperationsSound δ) (hE : EvalSound S γ)
    (hF : EvalSound S δ) (hr : r.Keeps γ δ) :
    (∀ (lookup : Identifier → Option (ReducedProduct r)) (ρ : Store V),
      (∀ x p, lookup x = some p → p.Contains γ δ (ρ x)) →
      ∀ e point p, eval lookup point e = .ok p → ∀ v, S.Evaluates ρ e v → p.Contains γ δ v) ∧
    (∀ p q s : ReducedProduct r, join p q = .ok s ∨ widen p q = .ok s →
      ∀ v, p.Contains γ δ v ∨ q.Contains γ δ v → s.Contains γ δ v) ∧
    (∀ p q s : ReducedProduct r, meet p q = .ok s →
      ∀ v, p.Contains γ δ v → q.Contains γ δ v → s.Contains γ δ v) ∧
    OperationsSound (Contains (r := r) γ δ) ∧ EvalSound S (Contains (r := r) γ δ) := by
  have hops : OperationsSound (Contains (r := r) γ δ) := operationsSound hγ hδ hr
  have heval : EvalSound S (Contains (r := r) γ δ) := evalSound hγ hδ hr hE hF
  refine ⟨fun lookup ρ hl e point p hp v hv => ?_, fun p q s hs v hv => ?_,
    fun p q s hs v hp hq => hops.of_meet hs hp hq, hops, heval⟩
  · exact eval_sound hops.empty heval hl hv hp
  · rcases hs with hs | hs
    · exact hops.of_join hs hv
    · exact hops.of_widen hs hv

end ReducedProduct

/-! ## A product of a product -/

/-- Exact integers on which only quotients without a rest are defined. -/
def Arithmetic.divisible : Arithmetic Int :=
  integers (fun a b => if b ≠ 0 ∧ b ∣ a then some (a / b) else none)
    (fun a b => if b = 0 then none else some (a.tmod b))

theorem Arithmetic.divisible_exactQuotients : divisible.ExactQuotients where
  literal _ := rfl
  neg _ := rfl
  add _ _ := rfl
  sub _ _ := rfl
  mul _ _ := rfl
  rem := truncating_rem
  lt _ _ := rfl
  le _ _ := rfl
  div {a b q} h := by
    simp only [divisible, integers, Option.ite_none_right_eq_some, Option.some.injEq] at h
    obtain ⟨⟨hb, hdvd⟩, rfl⟩ := h
    exact ⟨hb, Int.ediv_mul_cancel hdvd⟩

namespace SignParity

/-- The two parities of a number agree, and what they agree on sharpens the sign. -/
def agree : Reduction SignParity Parity where
  reduce p q := do
    let parity ← meet p.right q
    let pair ← ReducedProduct.pair p.left parity
    return (pair, parity)

theorem agree_keeps : agree.Keeps Contains (Parity.Contains isOddInt) := by
  intro p q c v h hp hq
  obtain ⟨parity, hparity, h⟩ := Analysis.bind_eq_ok.mp h
  obtain ⟨pair, hpair, h⟩ := Analysis.bind_eq_ok.mp h
  obtain rfl := Analysis.pure_eq_ok.mp h
  have hv : parity.Contains isOddInt v := parity_operationsSound.of_meet hparity hp.2 hq
  exact ⟨ReducedProduct.contains_pair sign_operationsSound.empty parity_operationsSound.empty
    reduction_keeps hpair hp.1 hv, hv⟩

/-- The opposite of `x`. -/
def opposite : Expr :=
  .unary .numericNeg (.var "x" (.single .numeric)) (.single .numeric)

/-- An odd number that is not positive has a positive opposite, as the parity on one side of the
nested pair reaches the sign on the other. -/
theorem product_sound_nested :
    let S := Arithmetic.divisible.semantics (.undefined Int)
    let Covers : ReducedProduct agree → Value Int → Prop :=
      ReducedProduct.Contains Contains (Parity.Contains isOddInt)
    let lookup : Identifier → Option (ReducedProduct agree) := fun x =>
      if x = "x" then some ⟨⟨.zeroMinus, .top⟩, .odd⟩ else none
    let ρ : Store (Value Int) := fun _ => .number (-3)
    (∀ x p, lookup x = some p → Covers p (ρ x)) ∧
      eval lookup ⟨"test"⟩ opposite = .ok ⟨⟨.plus, .odd⟩, .odd⟩ ∧
      S.Evaluates ρ opposite (.number 3) ∧ Covers ⟨⟨.plus, .odd⟩, .odd⟩ (.number 3) := by
  intro S Covers lookup ρ
  have hsign : EvalSound S Sign.Contains := Sign.evalSound Arithmetic.divisible_exactQuotients
  have hparity : EvalSound S (Parity.Contains isOddInt) :=
    (Parity.domainSound (Arithmetic.integers_respectsParity _ _)).toEvalSound
  obtain ⟨-, -, -, hops, hvalues⟩ := ReducedProduct.product_sound sign_operationsSound
    parity_operationsSound hsign hparity reduction_keeps
  obtain ⟨hnested, -⟩ :=
    ReducedProduct.product_sound hops parity_operationsSound hvalues hparity agree_keeps
  have hl : ∀ x p, lookup x = some p → Covers p (ρ x) := by
    intro x p hp
    obtain ⟨-, rfl⟩ := (Option.ite_none_right_eq_some.mp hp).imp_right Option.some.inj
    exact ⟨⟨show (-3 : Int) ≤ 0 by decide, trivial⟩, rfl⟩
  have heval : eval lookup ⟨"test"⟩ opposite = .ok ⟨⟨.plus, .odd⟩, .odd⟩ := rfl
  have hv : S.Evaluates ρ opposite (.number 3) :=
    .unary (Arithmetic.evaluates_var rfl) rfl (TypeSet.admits_single .numeric)
  exact ⟨hl, heval, hv, hnested lookup ρ hl opposite ⟨"test"⟩ _ heval _ hv⟩

end SignParity

end AbstractDomains
