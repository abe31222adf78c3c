import AbstractDomains.Proofs.Environment

/-!
# Analyses that never fail

In a domain none of whose hooks fails, every expression has an abstract value and every condition
an answer. If the domain is sound as well, what is found in an environment is right
(`Environment.RightFor`).

Results:
* `eval_succeeds`, `satisfies_succeeds`: for any lookup.
* `Environment.eval_succeeds`, `Environment.satisfies_succeeds`, `Environment.assume_succeeds`: in
  any environment.
* `Environment.rightFor_of_describes`: what a sound domain finds, without ever failing, is right.
-/

namespace AbstractDomains

open ValueDomain Analysis

variable {α : Type} [DecidableEq α]

/-- The order is decided whenever it is on distinct elements that are neither top nor bottom. -/
theorem leq_succeeds [AbstractLattice α]
    (h : ∀ a b : α, Succeeds (AbstractLattice.leqProper a b)) (a b : α) : (leq a b).Succeeds := by
  unfold leq
  split
  · exact succeeds_ok true
  · split
    · exact succeeds_ok false
    · exact h a b

/-- An operation that moves up succeeds if it does on elements that are not settled trivially. -/
theorem upward_succeeds [AbstractLattice α] {proper : α → α → Analysis α}
    (h : ∀ a b, (proper a b).Succeeds) (a b : α) :
    (AbstractLattice.upward proper a b).Succeeds := by
  rcases upward_cases proper a b with ⟨ha, -⟩ | ⟨hb, -⟩ | ⟨-, hproper⟩
  · exact ⟨a, ha⟩
  · exact ⟨b, hb⟩
  · rw [hproper]
    exact h a b

/-- An operation that moves down succeeds if it does on elements that are not settled trivially. -/
theorem downward_succeeds [AbstractLattice α] {proper : α → α → Analysis α}
    (h : ∀ a b, (proper a b).Succeeds) (a b : α) :
    (AbstractLattice.downward proper a b).Succeeds := by
  rcases downward_cases proper a b with ⟨ha, -⟩ | ⟨hb, -⟩ | ⟨-, hproper⟩
  · exact ⟨a, ha⟩
  · exact ⟨b, hb⟩
  · rw [hproper]
    exact h a b

/-- Meets succeed if they do on distinct elements that are neither top nor bottom. -/
theorem meet_succeeds [AbstractLattice α]
    (h : ∀ a b : α, Succeeds (AbstractLattice.meetProper a b)) (a b : α) : (meet a b).Succeeds :=
  downward_succeeds h a b

theorem unequalIfIncomparable_succeeds [AbstractLattice α]
    (h : ∀ a b : α, Succeeds (AbstractLattice.leqProper a b)) (a b : α) :
    (unequalIfIncomparable a b).Succeeds := by
  refine (leq_succeeds h a b).bind fun x => ?_
  split
  · exact succeeds_ok _
  · refine (leq_succeeds h b a).bind fun y => ?_
    split
    · exact succeeds_ok _
    · exact succeeds_ok _

/-- A domain whose hooks never fail. -/
structure TotalDomain (α : Type) [DecidableEq α] [ValueDomain α] : Prop where
  null : ∀ point, (evalNull point : Analysis α).Succeeds
  nonNull : ∀ value point, (evalNonNull value point : Analysis α).Succeeds
  unbound : ∀ id point, (evalVariable id point : Analysis α).Succeeds
  pushAny : ∀ types point, (evalPushAny types point : Analysis α).Succeeds
  skip : ∀ point, (evalSkip point : Analysis α).Succeeds
  unary : ∀ op (a : α) point, (evalUnary op a point).Succeeds
  binary : ∀ op (a b : α) point, (evalBinary op a b point).Succeeds
  ternary : ∀ op (a b c : α) point, (evalTernary op a b c point).Succeeds
  answer_value : ∀ (a : α) point, (satisfiesValue a point).Succeeds
  answer_unary : ∀ op (a : α) point, (satisfiesUnary op a point).Succeeds
  answer_binary : ∀ op (a b : α) point, (satisfiesBinary op a b point).Succeeds
  answer_ternary : ∀ op (a b c : α) point, (satisfiesTernary op a b c point).Succeeds

variable [ValueDomain α] {lookup : Identifier → Option α} {point : ProgramPoint} {e : Expr}

theorem valueOf_succeeds (hD : TotalDomain α) (id : Identifier) :
    (valueOf lookup point id).Succeeds := by
  unfold valueOf
  split
  · exact succeeds_ok _
  · exact hD.unbound id point

theorem onDefined_succeeds {x : Analysis α} {f : α → Analysis α} (hx : x.Succeeds)
    (hf : ∀ a, (f a).Succeeds) : (onDefined x f).Succeeds := by
  refine hx.bind fun a => ?_
  split
  · exact succeeds_ok a
  · exact hf a

/-- **Every expression has an abstract value.** -/
theorem eval_succeeds (hD : TotalDomain α) (e : Expr) : (eval lookup point e).Succeeds := by
  induction e with
  | constant value types =>
    cases value with
    | null => exact hD.null point
    | _ => exact hD.nonNull _ point
  | var id types => exact valueOf_succeeds hD id
  | pushAny types => exact hD.pushAny types point
  | skip types => exact hD.skip point
  | unary op arg types ih =>
    by_cases h : (Expr.unary op arg types).operandsFit = true
    · rw [eval_unary h]
      exact onDefined_succeeds ih fun a => hD.unary op a point
    · rw [eval_of_misfit h]
      exact succeeds_ok bottom
  | binary op left right types ihl ihr =>
    by_cases h : (Expr.binary op left right types).operandsFit = true
    · rw [eval_binary h]
      exact onDefined_succeeds ihl fun l => onDefined_succeeds ihr fun r => hD.binary op l r point
    · rw [eval_of_misfit h]
      exact succeeds_ok bottom
  | ternary op left middle right types ihl ihm ihr =>
    by_cases h : (Expr.ternary op left middle right types).operandsFit = true
    · rw [eval_ternary h]
      exact onDefined_succeeds ihl fun l => onDefined_succeeds ihm fun m =>
        onDefined_succeeds ihr fun r => hD.ternary op l m r point
    · rw [eval_of_misfit h]
      exact succeeds_ok bottom

/-- **Every condition has an answer.** -/
theorem satisfies_succeeds (hD : TotalDomain α) (e : Expr) :
    (satisfies lookup point e).Succeeds := by
  have hval : ∀ e, (eval lookup point e).Succeeds := eval_succeeds hD
  induction e using satisfies.induct with
  | case1 b types => exact succeeds_ok _
  | case2 value types hne =>
    simp only [satisfies]
    exact succeeds_ok _
  | case3 types | case4 types => exact succeeds_ok _
  | case5 id types =>
    rw [satisfies]
    exact (valueOf_succeeds hD id).bind fun a => hD.answer_value a point
  | case6 arg types ih =>
    rw [satisfies]
    exact ih.bind fun s => succeeds_ok s.negate
  | case7 left right types ihl ihr =>
    rw [satisfies]
    exact ihl.bind fun s => ihr.bind fun t => succeeds_ok (s.and t)
  | case8 left right types ihl ihr =>
    rw [satisfies]
    exact ihl.bind fun s => ihr.bind fun t => succeeds_ok (s.or t)
  | case9 op arg types hop hfit =>
    simp only [satisfies, hfit, if_true]
    refine (hval arg).bind fun a => ?_
    split
    · exact succeeds_ok _
    · exact hD.answer_unary op a point
  | case11 op left right types hand hor hfit =>
    simp only [satisfies, hfit, if_true]
    refine (hval left).bind fun a => (hval right).bind fun b => ?_
    split
    · exact succeeds_ok _
    · exact hD.answer_binary op a b point
  | case13 op left middle right types hfit =>
    rw [satisfies, if_pos hfit]
    refine (hval left).bind fun a => (hval middle).bind fun b => (hval right).bind fun c => ?_
    split
    · exact succeeds_ok _
    · exact hD.answer_ternary op a b c point
  | case10 op arg types hop hmis | case12 op left right types hand hor hmis =>
    simp only [satisfies, hmis]
    exact succeeds_ok _
  | case14 op left middle right types hmis =>
    rw [satisfies, if_neg hmis]
    exact succeeds_ok _

namespace Environment

variable {env : Environment α}

theorem eval_succeeds (hD : TotalDomain α) (e : Expr) : (env.eval e point).Succeeds := by
  cases env with
  | bottom => exact succeeds_ok bottom
  | entries m => exact AbstractDomains.eval_succeeds hD e

theorem satisfies_succeeds (hD : TotalDomain α) (e : Expr) : (env.satisfies e point).Succeeds := by
  cases env with
  | bottom => exact succeeds_ok _
  | entries m => exact AbstractDomains.satisfies_succeeds hD e

theorem assume_succeeds (hD : TotalDomain α)
    (hmeet : ∀ a b : α, Succeeds (AbstractLattice.meetProper a b)) (e : Expr) :
    (env.assume e point).Succeeds := by
  refine (satisfies_succeeds hD e).bind fun s => ?_
  split
  · exact succeeds_ok _
  · split
    · exact succeeds_ok _
    · rename_i id operand other _
      refine (eval_succeeds hD operand).bind fun v => (eval_succeeds hD other).bind fun w => ?_
      exact (meet_succeeds hmeet v w).bind fun _ => succeeds_ok _

variable {V : Type} {S : Semantics V} {γ : α → V → Prop} {ρ : Store V}

/-- What is found in an environment is right about a store: values of expressions cover all they can
take, answers about conditions agree with all they can take, and a condition that can be true leaves
the store described. Nothing of this fails. -/
structure RightFor (S : Semantics V) (γ : α → V → Prop) (env : Environment α) (ρ : Store V) :
    Prop where
  eval : ∀ e point, ∃ a, env.eval e point = .ok a ∧ ∀ v, S.Evaluates ρ e v → γ a v
  satisfies : ∀ e point, ∃ s, env.satisfies e point = .ok s ∧
    ∀ v, S.Evaluates ρ e v → S.Agrees s v
  assume : ∀ e point, S.Evaluates ρ e (S.ofBool true) →
    ∃ env', env.assume e point = .ok env' ∧ env'.Describes γ ρ

/-- **Sound domains that never fail are right** about every store an environment describes. -/
theorem rightFor_of_describes (hD : DomainSound S γ) (hT : TotalDomain α)
    (hmeet : ∀ a b : α, Succeeds (AbstractLattice.meetProper a b)) (hρ : env.Describes γ ρ) :
    RightFor S γ env ρ where
  eval e point := by
    obtain ⟨a, ha⟩ : (env.eval e point).Succeeds := eval_succeeds hT e
    exact ⟨a, ha, fun v hv => eval_sound hD.toJoinSound hD.toEvalSound hρ hv ha⟩
  satisfies e point := by
    obtain ⟨s, hs⟩ : (env.satisfies e point).Succeeds := satisfies_succeeds hT e
    have hall : ∀ op ∈ e.deciders, True := fun _ _ => trivial
    exact ⟨s, hs, fun v hv =>
      satisfies_sound hD.toJoinSound hD.toEvalSound hD.toAnswerSound hρ hall hv hs⟩
  assume e point hv := by
    obtain ⟨env', henv⟩ : (env.assume e point).Succeeds := assume_succeeds hT hmeet e
    have hall : ∀ op ∈ e.deciders, True := fun _ _ => trivial
    exact ⟨env', henv,
      describes_assume hD.toLatticeSound hD.toEvalSound hD.toAnswerSound hρ hall hv henv⟩

end Environment

end AbstractDomains
