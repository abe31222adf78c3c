import AbstractDomains.Proofs.Numeric.Integers

/-!
# Conditions with an undefined operand

An operand that does not fit its operator, or that has no value, leaves a condition undefined, so it
cannot hold. Conditions are refuted for that at every root but three: negation, conjunction and
disjunction are decided on the answers for their operands, whatever the values of these. So the
negation of an undefined comparison is found to hold.

Results:
* `settled_iff`: an answer is definite iff it follows, in three-valued logic, from the answers for
  the parts that are not connectives.
* `satisfies_of_undefined`: any other root with an undefined operand is refuted.
* `undefined_conditions`: in the domains of signs, of parities and of both, which undefined
  conditions are refuted and what is assumed of the others.
-/

namespace AbstractDomains

open ValueDomain Analysis

namespace Expr

/-- The operands of the root. -/
def operands : Expr → List Expr
  | unary _ arg _ => [arg]
  | binary _ left right _ => [left, right]
  | ternary _ left middle right _ => [left, middle, right]
  | _ => []

/-- Whether the root is a negation, a conjunction or a disjunction. -/
def isConnective : Expr → Bool
  | unary op _ _ => op = .logicalNot
  | binary op _ _ _ => op = .logicalAnd ∨ op = .logicalOr
  | _ => false

end Expr

/-- An operand of the root does not fit its operator, or has no value. -/
def HasUndefinedOperand {α : Type} [DecidableEq α] [AbstractLattice α] (value : Expr → Analysis α)
    (e : Expr) : Prop :=
  e.operandsFit = false ∨ ∃ operand ∈ e.operands, value operand = .ok bottom

/-- The truth value of a condition follows from the answers for its parts that are not connectives.
One side can settle a conjunction or a disjunction even if nothing is known of the other one. -/
inductive Settled (answer : Expr → Analysis Satisfiability) : Expr → Bool → Prop
  | part {e : Expr} {b : Bool} :
    e.isConnective = false → answer e = .ok (.ofBool b) → Settled answer e b
  | not {arg : Expr} {types : TypeSet} {b : Bool} :
    Settled answer arg b → Settled answer (.unary .logicalNot arg types) !b
  | and_true {left right : Expr} {types : TypeSet} : Settled answer left true →
    Settled answer right true → Settled answer (.binary .logicalAnd left right types) true
  | and_left {left right : Expr} {types : TypeSet} : Settled answer left false →
    Settled answer (.binary .logicalAnd left right types) false
  | and_right {left right : Expr} {types : TypeSet} : Settled answer right false →
    Settled answer (.binary .logicalAnd left right types) false
  | or_false {left right : Expr} {types : TypeSet} : Settled answer left false →
    Settled answer right false → Settled answer (.binary .logicalOr left right types) false
  | or_left {left right : Expr} {types : TypeSet} : Settled answer left true →
    Settled answer (.binary .logicalOr left right types) true
  | or_right {left right : Expr} {types : TypeSet} : Settled answer right true →
    Settled answer (.binary .logicalOr left right types) true

namespace Satisfiability

theorem negate_eq_ofBool_iff {s : Satisfiability} {b : Bool} :
    s.negate = .ofBool b ↔ s = .ofBool !b := by
  cases s <;> cases b <;> decide

theorem and_eq_ofBool_iff {s t : Satisfiability} {b : Bool} :
    s.and t = .ofBool b ↔
      if b = true then s = .ofBool true ∧ t = .ofBool true
      else s = .ofBool false ∨ t = .ofBool false := by
  cases s <;> cases t <;> cases b <;> decide

theorem or_eq_ofBool_iff {s t : Satisfiability} {b : Bool} :
    s.or t = .ofBool b ↔
      if b = true then s = .ofBool true ∨ t = .ofBool true
      else s = .ofBool false ∧ t = .ofBool false := by
  cases s <;> cases t <;> cases b <;> decide

end Satisfiability

variable {α : Type} [DecidableEq α] [ValueDomain α] {lookup : Identifier → Option α}
  {point : ProgramPoint} {e : Expr} {b : Bool}

/-! ## Connectives -/

theorem satisfies_of_settled (hD : TotalDomain α) (h : Settled (satisfies lookup point) e b) :
    satisfies lookup point e = .ok (.ofBool b) := by
  have hanswer : ∀ e, (satisfies lookup point e).Succeeds := satisfies_succeeds hD
  induction h with
  | part _ h => exact h
  | @not arg types b _ ih =>
    rw [satisfies, ih]
    cases b <;> rfl
  | and_true _ _ ihl ihr | or_false _ _ ihl ihr =>
    rw [satisfies, ihl, ihr]
    rfl
  | @and_left left right types _ ih | @or_left left right types _ ih =>
    obtain ⟨t, ht⟩ := hanswer right
    rw [satisfies, ih, ht]
    rfl
  | @and_right left right types _ ih | @or_right left right types _ ih =>
    obtain ⟨s, hs⟩ := hanswer left
    rw [satisfies, ih, hs]
    cases s <;> rfl

theorem settled_of_satisfies (h : satisfies lookup point e = .ok (.ofBool b)) :
    Settled (satisfies lookup point) e b := by
  induction e using satisfies.induct generalizing b with
  | case6 arg types ih =>
    rw [satisfies, bind_eq_ok] at h
    obtain ⟨s, hs, h⟩ := h
    rw [pure_eq_ok, Satisfiability.negate_eq_ofBool_iff] at h
    subst h
    exact b.not_not ▸ .not (ih hs)
  | case7 left right types ihl ihr =>
    rw [satisfies, bind_eq_ok] at h
    obtain ⟨s, hs, h⟩ := h
    obtain ⟨t, ht, h⟩ := bind_eq_ok.mp h
    rw [pure_eq_ok, Satisfiability.and_eq_ofBool_iff] at h
    split at h
    · rename_i hb
      obtain ⟨rfl, rfl⟩ := h
      exact hb ▸ .and_true (ihl hs) (ihr ht)
    · rename_i hb
      rw [Bool.not_eq_true] at hb
      rcases h with rfl | rfl
      · exact hb ▸ .and_left (ihl hs)
      · exact hb ▸ .and_right (ihr ht)
  | case8 left right types ihl ihr =>
    rw [satisfies, bind_eq_ok] at h
    obtain ⟨s, hs, h⟩ := h
    obtain ⟨t, ht, h⟩ := bind_eq_ok.mp h
    rw [pure_eq_ok, Satisfiability.or_eq_ofBool_iff] at h
    split at h
    · rename_i hb
      rcases h with rfl | rfl
      · exact hb ▸ .or_left (ihl hs)
      · exact hb ▸ .or_right (ihr ht)
    · rename_i hb
      rw [Bool.not_eq_true] at hb
      obtain ⟨rfl, rfl⟩ := h
      exact hb ▸ .or_false (ihl hs) (ihr ht)
  | case9 op arg types hop hfit | case10 op arg types hop hfit =>
    exact .part (decide_eq_false hop) h
  | case11 op left right types hand hor hfit | case12 op left right types hand hor hfit =>
    exact .part (decide_eq_false (not_or.mpr ⟨hand, hor⟩)) h
  | _ => exact .part rfl h

/-- **An answer is definite iff it is settled** by the answers for the parts that are not
connectives. -/
theorem settled_iff (hD : TotalDomain α) :
    satisfies lookup point e = .ok (.ofBool b) ↔ Settled (satisfies lookup point) e b :=
  ⟨settled_of_satisfies, satisfies_of_settled hD⟩

/-! ## Other operators -/

/-- **Conditions with an undefined operand are refuted** if they are not connectives. -/
theorem satisfies_of_undefined (hD : TotalDomain α) (hbottom : isBottom (bottom : α) = true)
    (hroot : e.isConnective = false) (h : HasUndefinedOperand (eval lookup point) e) :
    satisfies lookup point e = .ok .notSatisfied := by
  have hval : ∀ e, (eval lookup point e).Succeeds := eval_succeeds hD
  have hisBottom : ∀ {operand a}, eval lookup point operand = .ok bottom →
      eval lookup point operand = .ok a → isBottom a = true := fun hb ha =>
    Except.ok.inj (hb.symm.trans ha) ▸ hbottom
  induction e using satisfies.induct with
  | case1 | case2 | case3 | case4 | case5 =>
    obtain h | ⟨operand, hmem, -⟩ := h
    · exact absurd h.symm Bool.false_ne_true
    · exact absurd hmem List.not_mem_nil
  | case6 | case7 | case8 => exact absurd hroot.symm Bool.false_ne_true
  | case9 op arg types hop hfit =>
    obtain ⟨a, ha⟩ := hval arg
    obtain h | ⟨operand, hmem, hb⟩ := h
    · exact absurd (h.symm.trans hfit) Bool.false_ne_true
    · obtain rfl := List.mem_singleton.mp hmem
      simp only [satisfies, hfit, if_true, ha, hisBottom hb ha, bind, Except.bind]
      rfl
  | case11 op left right types hand hor hfit =>
    obtain ⟨a, ha⟩ := hval left
    obtain ⟨b, hb⟩ := hval right
    have hone : (isBottom a || isBottom b) = true := by
      obtain h | ⟨operand, hmem, hundef⟩ := h
      · exact absurd (h.symm.trans hfit) Bool.false_ne_true
      · rw [Bool.or_eq_true_iff]
        rcases List.mem_pair.mp hmem with rfl | rfl
        · exact .inl (hisBottom hundef ha)
        · exact .inr (hisBottom hundef hb)
    simp only [satisfies, hfit, if_true, ha, hb, hone, bind, Except.bind]
    rfl
  | case13 op left middle right types hfit =>
    obtain ⟨a, ha⟩ := hval left
    obtain ⟨b, hb⟩ := hval middle
    obtain ⟨c, hc⟩ := hval right
    have hone : (isBottom a || isBottom b || isBottom c) = true := by
      obtain h | ⟨operand, hmem, hundef⟩ := h
      · exact absurd (h.symm.trans hfit) Bool.false_ne_true
      · rw [Bool.or_eq_true_iff, Bool.or_eq_true_iff]
        simp only [Expr.operands, List.mem_cons, List.not_mem_nil, or_false] at hmem
        rcases hmem with rfl | rfl | rfl
        · exact .inl (.inl (hisBottom hundef ha))
        · exact .inl (.inr (hisBottom hundef hb))
        · exact .inr (hisBottom hundef hc)
    simp only [satisfies, hfit, if_true, ha, hb, hc, hone, bind, Except.bind]
    rfl
  | case10 op arg types hop hmis | case12 op left right types hand hor hmis =>
    simp only [satisfies, hmis]
    rfl
  | case14 op left middle right types hmis =>
    rw [satisfies, if_neg hmis]

namespace Environment

variable {env : Environment α}

/-- What refutes a condition with an undefined operand: no execution gets here, the root is not a
connective, or the answers for the other parts make it false. -/
def Refutes (env : Environment α) (point : ProgramPoint) (e : Expr) : Prop :=
  env = .bottom ∨ e.isConnective = false ∨ Settled (env.satisfies · point) e false

theorem satisfies_iff_refutes (hD : TotalDomain α) (hbottom : isBottom (bottom : α) = true)
    (h : HasUndefinedOperand (env.eval · point) e) :
    env.satisfies e point = .ok .notSatisfied ↔ env.Refutes point e := by
  cases env with
  | bottom => exact iff_of_true rfl (.inl rfl)
  | entries m =>
    by_cases hroot : e.isConnective = false
    · exact iff_of_true (satisfies_of_undefined hD hbottom hroot h) (.inr (.inl hroot))
    · refine (settled_iff (b := false) hD).trans ⟨fun h => .inr (.inr h), fun h => ?_⟩
      exact (h.resolve_left (Pointwise.entries_ne_bottom m)).resolve_left hroot

/-- A connective that is not refuted restricts nothing. -/
theorem assume_of_connective (hroot : e.isConnective = true) {s : Satisfiability}
    (hs : env.satisfies e point = .ok s) (hne : s ≠ .notSatisfied) :
    env.assume e point = .ok env := by
  have hnone : e.equatedVariable? = none := by
    cases heq : e.equatedVariable? with
    | none => rfl
    | some x =>
      obtain ⟨id, operand, other⟩ := x
      obtain ⟨types, types', -, rfl | rfl⟩ := equatedVariable?_eq_some heq
      · exact absurd hroot Bool.false_ne_true
      · exact absurd hroot Bool.false_ne_true
  unfold assume
  rw [hs, hnone]
  exact if_neg hne

/-- A condition that something refutes is found not to hold and leaves no execution; any other one
is not, and restricts nothing. -/
structure DecidesUndefined (env : Environment α) (point : ProgramPoint) (e : Expr) : Prop where
  refuted : env.Refutes point e →
    env.satisfies e point = .ok .notSatisfied ∧ env.assume e point = .ok .bottom
  kept : ¬ env.Refutes point e →
    env.satisfies e point ≠ .ok .notSatisfied ∧ env.assume e point = .ok env

theorem decidesUndefined (hD : TotalDomain α) (hbottom : isBottom (bottom : α) = true)
    (h : HasUndefinedOperand (env.eval · point) e) : env.DecidesUndefined point e := by
  have hiff := satisfies_iff_refutes hD hbottom h
  refine ⟨fun hr => ⟨hiff.mpr hr, assume_of_refuted (hiff.mpr hr)⟩, fun hr => ?_⟩
  obtain ⟨s, hs⟩ : (env.satisfies e point).Succeeds := satisfies_succeeds hD e
  have hne : env.satisfies e point ≠ .ok .notSatisfied := mt hiff.mp hr
  have hroot : e.isConnective = true :=
    (Bool.not_eq_false _).mp fun hroot => hr (.inr (.inl hroot))
  exact ⟨hne, assume_of_connective hroot hs fun h => hne (h ▸ hs)⟩

end Environment

/-- **Which undefined conditions are refuted**, in all environments of signs, of parities and of
both: those whose root is not a connective, and the connectives that the answers for their parts
make false. Any other one is assumed without restricting anything. -/
theorem undefined_conditions (point : ProgramPoint) (e : Expr) :
    (∀ env : Environment Sign, HasUndefinedOperand (env.eval · point) e →
      env.DecidesUndefined point e) ∧
    (∀ env : Environment Parity, HasUndefinedOperand (env.eval · point) e →
      env.DecidesUndefined point e) ∧
    ∀ env : Environment SignParity, HasUndefinedOperand (env.eval · point) e →
      env.DecidesUndefined point e :=
  ⟨fun _ => Environment.decidesUndefined Sign.totalDomain rfl,
    fun _ => Environment.decidesUndefined Parity.totalDomain rfl,
    fun _ => Environment.decidesUndefined SignParity.totalDomain rfl⟩

/-- A comparison of an undefined quotient with a number. -/
def quotientByZeroIsOne : Expr :=
  let number := TypeSet.single .numeric
  .binary .comparisonEq
    (.binary .numericDiv (.constant (.int 1) number) (.constant (.int 0) number) number)
    (.constant (.int 1) number) (.single .boolean)

theorem undefined_conditions_of_quotient :
    let env : Environment Sign := .top
    HasUndefinedOperand (env.eval · ⟨"test"⟩) quotientByZeroIsOne ∧
      env.satisfies quotientByZeroIsOne ⟨"test"⟩ = .ok .notSatisfied ∧
      env.assume quotientByZeroIsOne ⟨"test"⟩ = .ok .bottom := by
  intro env
  have hundef : HasUndefinedOperand (env.eval · ⟨"test"⟩) quotientByZeroIsOne :=
    .inr ⟨_, List.mem_cons_self, rfl⟩
  exact ⟨hundef, ((undefined_conditions ⟨"test"⟩ _).1 env hundef).refuted (.inr (.inl rfl))⟩

/-- The negation of the comparison has an undefined operand as well, and is found to hold. -/
theorem undefined_negation_satisfied :
    let env : Environment Sign := .top
    let negation : Expr := .unary .logicalNot quotientByZeroIsOne (.single .boolean)
    HasUndefinedOperand (env.eval · ⟨"test"⟩) negation ∧
      env.satisfies negation ⟨"test"⟩ = .ok .satisfied ∧
      env.assume negation ⟨"test"⟩ = .ok env := by
  intro env negation
  exact ⟨.inr ⟨_, List.mem_cons_self, rfl⟩, rfl, rfl⟩

end AbstractDomains
