import AbstractDomains.Proofs.Numeric.Monotonicity

/-!
# Evaluation is monotone in the candidate types

Type inference narrows the candidate types of the nodes of an expression while it runs. A set of
candidates that is not known yet is refined by any other one, and a known one by its parts. An
operand that does not fit where more types are possible does not fit where fewer are: only a single
type can be out of place, and then nothing else is left to choose from. So inference can only turn
values into bottom, which moves all values that depend on them down. What is evaluated early covers
what is evaluated late.

Results:
* `TypeSet.Refines.accepts`, `Expr.Refines.operandsFit`: operands that fit still fit once less is
  known of their types.
* `eval_refined`: a refined expression has a related value, if the hooks of the domains are related.
* `eval_monotone_in_types`: it has a lower one for signs, for parities and for pairs of both.
-/

namespace AbstractDomains

open ValueDomain

/-! ## Refinement -/

namespace TypeSet

variable {s t : TypeSet} {category : Category}

/-- Nothing is known of `t`, or something is known of `s` and all its candidates are in `t`. -/
def Refines (s t : TypeSet) : Prop :=
  t.isUntyped = true ∨ s.isUntyped = false ∧ ∀ τ, s.contains τ = true → t.contains τ = true

instance (s t : TypeSet) : Decidable (s.Refines t) :=
  inferInstanceAs (Decidable (_ ∨ _))

theorem Refines.refl (s : TypeSet) : s.Refines s := by
  cases h : s.isUntyped with
  | true => exact .inl h
  | false => exact .inr ⟨h, fun _ hτ => hτ⟩

theorem size_le_of_subset (h : ∀ τ, s.contains τ = true → t.contains τ = true) :
    s.size ≤ t.size := by
  unfold size toList
  rw [← List.countP_eq_length_filter, ← List.countP_eq_length_filter]
  exact List.countP_mono_left fun τ _ => h τ

/-- **What accepts the refined candidates accepts the others.** -/
theorem Refines.accepts (h : s.Refines t) (hs : s.accepts category = true) :
    t.accepts category = true := by
  unfold TypeSet.accepts at hs ⊢
  simp only [Bool.or_eq_true, decide_eq_true_eq] at hs ⊢
  rcases h with ht | ⟨hknown, hsub⟩
  · exact .inl (.inl ht)
  · rcases hs with (hs | hs) | hs
    · exact absurd hs (by simp [hknown])
    · exact .inl (.inr (Nat.lt_of_lt_of_le hs (size_le_of_subset hsub)))
    · obtain ⟨τ, hτ, hcategory⟩ := List.any_eq_true.mp hs
      exact .inr (List.any_eq_true.mpr ⟨τ, mem_toList.mpr (hsub τ (mem_toList.mp hτ)), hcategory⟩)

end TypeSet

namespace Expr

/-- The two expressions differ in the candidate types of their nodes only, and those of the first
one refine those of the second one at every node. -/
inductive Refines : Expr → Expr → Prop
  | constant {s t : TypeSet} (value : Constant) : s.Refines t →
    Refines (.constant value s) (.constant value t)
  | var {s t : TypeSet} (id : Identifier) : s.Refines t → Refines (.var id s) (.var id t)
  | unary {s t : TypeSet} {arg arg' : Expr} (op : UnaryOp) : Refines arg arg' → s.Refines t →
    Refines (.unary op arg s) (.unary op arg' t)
  | binary {s t : TypeSet} {left left' right right' : Expr} (op : BinaryOp) :
    Refines left left' → Refines right right' → s.Refines t →
    Refines (.binary op left right s) (.binary op left' right' t)
  | ternary {s t : TypeSet} {left left' middle middle' right right' : Expr} (op : TernaryOp) :
    Refines left left' → Refines middle middle' → Refines right right' → s.Refines t →
    Refines (.ternary op left middle right s) (.ternary op left' middle' right' t)
  | pushAny {s t : TypeSet} : s.Refines t → Refines (.pushAny s) (.pushAny t)
  | skip {s t : TypeSet} : s.Refines t → Refines (.skip s) (.skip t)

variable {e e' : Expr}

theorem Refines.types (h : e.Refines e') : e.types.Refines e'.types := by
  cases h <;> assumption

/-- **Operands that fit still fit** once less is known of their types. -/
theorem Refines.operandsFit (h : e.Refines e') (hfit : e.operandsFit = true) :
    e'.operandsFit = true := by
  cases h with
  | constant | var | pushAny | skip => rfl
  | unary op harg => exact harg.types.accepts hfit
  | binary op hl hr =>
    simp only [Expr.operandsFit, BinaryOp.accepts, Bool.and_eq_true] at hfit ⊢
    exact ⟨hl.types.accepts hfit.1, hr.types.accepts hfit.2⟩
  | ternary op hl hm hr =>
    simp only [Expr.operandsFit, TernaryOp.accepts, Bool.and_eq_true] at hfit ⊢
    exact ⟨⟨hl.types.accepts hfit.1.1, hm.types.accepts hfit.1.2⟩, hr.types.accepts hfit.2⟩

end Expr

/-! ## Evaluation -/

section Hooks

variable {α β : Type} [DecidableEq α] [DecidableEq β] [ValueDomain α] [ValueDomain β]
  {R : α → β → Prop} {lookup : Identifier → Option α} {lookup' : Identifier → Option β}
  {point : ProgramPoint} {e e' : Expr}

/-- **A refined expression has a related value**, by induction on the two expressions. Where an
operand of the refined one does not fit, its value is bottom. -/
theorem eval_refined (hR : HooksRelated R) (hbottom : isBottom (bottom : α) = true)
    (hany : ∀ {s t : TypeSet}, s.Refines t → Related R (evalPushAny s point) (evalPushAny t point))
    (hl : ∀ id, Related R (valueOf lookup point id) (valueOf lookup' point id))
    (h : e.Refines e') : Related R (eval lookup point e) (eval lookup' point e') := by
  have hmisfit : ∀ {e e' : Expr}, ¬ e.operandsFit = true →
      Related R (eval lookup point e) (eval lookup' point e') := by
    intro e e' hfit
    obtain ⟨a, b, -, hb, hab⟩ := eval_related hR hl e'
    exact ⟨bottom, b, eval_of_misfit hfit, hb, hR.stop_left hR.bottom hbottom hab⟩
  induction h with
  | constant value =>
    cases value with
    | null => exact hR.null point
    | _ => exact hR.nonNull _ point
  | var id => exact hl id
  | pushAny htypes => exact hany htypes
  | skip => exact hR.skip point
  | @unary s t arg arg' op harg htypes ih =>
    by_cases hfit : (Expr.unary op arg s).operandsFit = true
    · have hfit' := (Expr.Refines.unary op harg htypes).operandsFit hfit
      rw [eval_unary hfit, eval_unary hfit']
      exact onDefined_related hR ih fun ha => hR.unary op point ha
    · exact hmisfit hfit
  | @binary s t left left' right right' op hleft hright htypes ihl ihr =>
    by_cases hfit : (Expr.binary op left right s).operandsFit = true
    · have hfit' := (Expr.Refines.binary op hleft hright htypes).operandsFit hfit
      rw [eval_binary hfit, eval_binary hfit']
      exact onDefined_related hR ihl fun ha => onDefined_related hR ihr fun hb =>
        hR.binary op point ha hb
    · exact hmisfit hfit
  | @ternary s t left left' middle middle' right right' op hleft hmid hright htypes ihl ihm ihr =>
    by_cases hfit : (Expr.ternary op left middle right s).operandsFit = true
    · have hfit' := (Expr.Refines.ternary op hleft hmid hright htypes).operandsFit hfit
      rw [eval_ternary hfit, eval_ternary hfit']
      exact onDefined_related hR ihl fun ha => onDefined_related hR ihm fun hb =>
        onDefined_related hR ihr fun hc => hR.ternary op point ha hb hc
    · exact hmisfit hfit

end Hooks

/-- In a domain that never fails and does not look at candidate types itself, one lookup will
do. -/
theorem eval_refined_self {α : Type} [DecidableEq α] [ValueDomain α] {R : α → α → Prop}
    (hR : HooksRelated R) (hD : TotalDomain α) (hrefl : ∀ a, R a a)
    (hbottom : isBottom (bottom : α) = true)
    (hany : ∀ (s t : TypeSet) point, evalPushAny s point = (evalPushAny t point : Analysis α))
    {e e' : Expr} (h : e.Refines e') (lookup : Identifier → Option α) (point : ProgramPoint) :
    Related R (eval lookup point e) (eval lookup point e') := by
  refine eval_refined hR hbottom (fun {s t} _ => ?_) (fun id => ?_) h
  · exact hany s t point ▸ hR.pushAny s point
  · obtain ⟨a, ha⟩ : (valueOf lookup point id).Succeeds := valueOf_succeeds hD id
    exact ⟨a, a, ha, ha, hrefl a⟩

/-- **Evaluation is monotone in the candidate types.** An expression whose candidate types refine
those of another one at every node has a value, the other one has one too, and the first is below
the second: for signs and for parities in their order, for pairs of both in each component. -/
theorem eval_monotone_in_types {e e' : Expr} (h : e.Refines e') (point : ProgramPoint) :
    (∀ lookup : Identifier → Option Sign,
      Related Below (eval lookup point e) (eval lookup point e')) ∧
    (∀ lookup : Identifier → Option Parity,
      Related Below (eval lookup point e) (eval lookup point e')) ∧
    ∀ lookup : Identifier → Option SignParity,
      Related ReducedProduct.ComponentsBelow (eval lookup point e) (eval lookup point e') := by
  refine ⟨fun lookup => ?_, fun lookup => ?_, fun lookup => ?_⟩
  · exact eval_refined_self Sign.hooksRelated Sign.totalDomain below_self rfl (fun _ _ _ => rfl) h
      lookup point
  · exact eval_refined_self Parity.hooksRelated Parity.totalDomain below_self rfl
      (fun _ _ _ => rfl) h lookup point
  · exact eval_refined_self SignParity.hooksRelated SignParity.totalDomain
      (fun p => ⟨below_self p.left, below_self p.right⟩) rfl (fun _ _ _ => rfl) h lookup point

/-- The sum of one and the opposite of `x`, with the candidate types of `x` and of the sum. -/
def oneMinus (operand sum : TypeSet) : Expr :=
  let number := TypeSet.single .numeric
  .binary .numericAdd (.ofConstant (.int 1))
    (.unary .numericNeg (.var "x" operand) number) sum

/-- While `x` can be a number or a boolean it has an opposite, and the sum has a value. Once it is
known to be a boolean there is none. -/
theorem eval_monotone_in_types_of_boolean :
    let early := oneMinus (.ofList [.boolean, .numeric]) .empty
    let late := oneMinus (.single .boolean) (.single .numeric)
    let negative : Identifier → Option SignParity := fun _ => some ⟨.minus, .odd⟩
    late.Refines early ∧ ¬ early.Refines late ∧
      eval negative ⟨"p"⟩ late = .ok .bottom ∧ eval negative ⟨"p"⟩ early = .ok ⟨.plus, .even⟩ ∧
      Related ReducedProduct.ComponentsBelow (eval negative ⟨"p"⟩ late)
        (eval negative ⟨"p"⟩ early) := by
  intro early late negative
  have hrefines : late.Refines early :=
    .binary _ (.constant _ (.refl _)) (.unary _ (.var _ (by decide)) (.refl _)) (by decide)
  have hnot : ¬ early.Refines late := by
    intro h
    exact absurd h.types (by decide)
  exact ⟨hrefines, hnot, by decide, by decide, (eval_monotone_in_types hrefines ⟨"p"⟩).2.2 negative⟩

end AbstractDomains
