import AbstractDomains.Environment
import AbstractDomains.Proofs.Evaluation

/-!
# Environments keep the stores of the program

Each operation on environments is related to what it stands for in the program: an assignment, a
variable that may have changed in any way, a condition that holds. The stores an environment
describes (`Pointwise.Describes`) then stay described.

Results:
* `Environment.eval_sound`, `Environment.satisfies_sound`: values and answers found in an
  environment are right in every store it describes.
* `Environment.satisfies_equality`, `Environment.assume_of_refuted`, `Environment.assume_inv`: how
  an equality is answered, and what is left where a condition is assumed.
* `Environment.describes_assign`, `Environment.describes_forget`, `Environment.describes_assume`:
  the operations keep every store the program can be in.
-/

namespace AbstractDomains.Environment

variable {α V : Type} [DecidableEq α] [ValueDomain α] {S : Semantics V} {γ : α → V → Prop}
  {env env' : Environment α} {point : ProgramPoint} {ρ : Store V} {e : Expr} {v : V}

/-- **The value found in an environment stands for every value the expression can take.** -/
theorem eval_sound (hγ : JoinSound γ) (hD : EvalSound S γ) (hρ : env.Describes γ ρ)
    (hv : S.Evaluates ρ e v) {a : α} (h : env.eval e point = .ok a) : γ a v := by
  cases env with
  | bottom => exact hρ.elim
  | entries m => exact AbstractDomains.eval_sound hγ.empty hD hρ hv h

/-- **The answer found in an environment is right about every value the condition can take.** -/
theorem satisfies_sound (hγ : JoinSound γ) (hD : EvalSound S γ) {ops : BinaryOp → Prop}
    (hA : AnswerSound S γ ops) (hρ : env.Describes γ ρ) (hops : ∀ op ∈ e.deciders, ops op)
    (hv : S.Evaluates ρ e v) {s : Satisfiability} (h : env.satisfies e point = .ok s) :
    S.Agrees s v := by
  cases env with
  | bottom => exact hρ.elim
  | entries m => exact AbstractDomains.satisfies_sound hγ hD hA hρ hops hv h

/-- A variable that is set to a value its new entry stands for keeps the store described. -/
theorem describes_set (hγ : JoinSound γ) {id : Identifier} {a : α} (hρ : env.Describes γ ρ)
    (ha : γ a v) : (Pointwise.set env id a).Describes γ (ρ.set id v) := by
  have hb : isBottom a = false := Bool.eq_false_iff.mpr fun hb => hγ.empty hb ha
  rw [Pointwise.describes_iff] at hρ ⊢
  intro x
  by_cases hx : x = id
  · subst hx
    rw [Store.set_self]
    exact Pointwise.allows_set_self hγ (hρ x).ne_bottom ha
  · rw [Store.set_of_ne hx]
    exact Pointwise.allows_set_of_ne hx hb (hρ x)

/-- **Assignments**, of any value the expression can take. -/
theorem describes_assign (hγ : JoinSound γ) (hD : EvalSound S γ) {id : Identifier}
    (hρ : env.Describes γ ρ) (hv : S.Evaluates ρ e v) (h : env.assign id e point = .ok env') :
    env'.Describes γ (ρ.set id v) := by
  obtain ⟨a, ha, h⟩ := Analysis.bind_eq_ok.mp h
  obtain rfl := Analysis.pure_eq_ok.mp h
  exact describes_set hγ hρ (eval_sound hγ hD hρ hv ha)

omit [DecidableEq α] [ValueDomain α] in
/-- **A forgotten variable** can have any value. -/
theorem describes_forget {id : Identifier} (hρ : env.Describes γ ρ) (v : V) :
    (Pointwise.forget env id).Describes γ (ρ.set id v) := by
  rw [Pointwise.describes_iff] at hρ ⊢
  intro x
  by_cases hx : x = id
  · subst hx
    exact Pointwise.allows_forget_self (hρ x).ne_bottom
  · rw [Store.set_of_ne hx]
    exact Pointwise.allows_forget_of_ne hx (hρ x)

/-- The operands of an equality with a variable on one side. -/
theorem equatedVariable?_eq_some {id : Identifier} {operand other : Expr}
    (h : e.equatedVariable? = some (id, operand, other)) :
    ∃ types types', operand = .var id types ∧
      (e = .binary .comparisonEq operand other types' ∨
        e = .binary .comparisonEq other operand types') := by
  unfold Expr.equatedVariable? at h
  split at h
  · obtain ⟨rfl, rfl, rfl⟩ := h
    exact ⟨_, _, rfl, .inl rfl⟩
  · obtain ⟨rfl, rfl, rfl⟩ := h
    exact ⟨_, _, rfl, .inr rfl⟩
  · exact nomatch h

/-- The answer for an equality rests on the values of both operands. -/
theorem satisfies_equality {l r : Expr} {types : TypeSet} (henv : env ≠ .bottom) :
    env.satisfies (.binary .comparisonEq l r types) point = (do
      let a ← env.eval l point
      let b ← env.eval r point
      if isBottom a || isBottom b then return .notSatisfied
      ValueDomain.satisfiesBinary .comparisonEq a b point) := by
  cases env with
  | bottom => exact absurd rfl henv
  | entries m =>
    have hfit : BinaryOp.accepts .comparisonEq l.types r.types = true :=
      Bool.and_eq_true_iff.mpr ⟨TypeSet.accepts_any _, TypeSet.accepts_any _⟩
    simp only [satisfies, AbstractDomains.satisfies, hfit, if_true]
    rfl

/-- Nothing is left where a condition does not hold. -/
theorem assume_of_refuted (h : env.satisfies e point = .ok .notSatisfied) :
    env.assume e point = .ok .bottom := by
  unfold assume
  rw [h]
  rfl

/-- **What is left where a condition is assumed**: nothing if it is refuted, and otherwise what
there was, apart from a variable that it equates. -/
theorem assume_inv (h : env.assume e point = .ok env') :
    (env.satisfies e point = .ok .notSatisfied ∧ env' = .bottom) ∨
      env.satisfies e point ≠ .ok .notSatisfied ∧
        (e.equatedVariable? = none ∧ env' = env ∨
          ∃ id operand other a b c, e.equatedVariable? = some (id, operand, other) ∧
            env.eval operand point = .ok a ∧ env.eval other point = .ok b ∧ meet a b = .ok c ∧
            env' = Pointwise.set env id c) := by
  obtain ⟨s, hs, h⟩ := Analysis.bind_eq_ok.mp h
  rw [hs]
  split at h
  · rename_i hrefuted
    exact .inl ⟨congrArg Except.ok hrefuted, (Analysis.pure_eq_ok.mp h).symm⟩
  · rename_i hopen
    refine .inr ⟨fun heq => hopen (Except.ok.inj heq), ?_⟩
    split at h
    · rename_i hnone
      exact .inl ⟨hnone, (Analysis.pure_eq_ok.mp h).symm⟩
    · rename_i id operand other heq
      simp only [Analysis.bind_eq_ok, Analysis.pure_eq_ok] at h
      obtain ⟨a, ha, b, hb, c, hc, hset⟩ := h
      exact .inr ⟨id, operand, other, a, b, c, heq, ha, hb, hc, hset.symm⟩

/-- **A condition that holds.** The narrowed variable keeps its value, since the other operand
takes the same one. -/
theorem describes_assume (hγ : LatticeSound γ) (hD : EvalSound S γ) {ops : BinaryOp → Prop}
    (hA : AnswerSound S γ ops) (hρ : env.Describes γ ρ) (hops : ∀ op ∈ e.deciders, ops op)
    (hv : S.Evaluates ρ e (S.ofBool true)) (h : env.assume e point = .ok env') :
    env'.Describes γ ρ := by
  rcases assume_inv h with
    ⟨hs, -⟩ | ⟨-, ⟨-, rfl⟩ | ⟨id, operand, other, a, b, c, heq, ha, hb, hc, rfl⟩⟩
  · exact absurd rfl (satisfies_sound hγ.toJoinSound hD hA hρ hops hv hs)
  · exact hρ
  · obtain ⟨types, types', rfl, he⟩ := equatedVariable?_eq_some heq
    -- both operands take the value of the variable
    have hid : S.Evaluates ρ (.var id types) (ρ id) ∧ S.Evaluates ρ other (ρ id) := by
      rcases he with rfl | rfl
      · obtain ⟨w, hl, hr⟩ := hv.eq_inv
        cases hl
        exact ⟨.var ‹_›, hr⟩
      · obtain ⟨w, hl, hr⟩ := hv.eq_inv
        cases hr
        exact ⟨.var ‹_›, hl⟩
    have hmeet : γ c (ρ id) := hγ.of_meet hc
      (eval_sound hγ.toJoinSound hD hρ hid.1 ha) (eval_sound hγ.toJoinSound hD hρ hid.2 hb)
    have hset : (Pointwise.set env id c).Describes γ (ρ.set id (ρ id)) :=
      describes_set hγ.toJoinSound hρ hmeet
    rwa [Store.set_get] at hset

end AbstractDomains.Environment
