import AbstractDomains.Proofs.Monotonicity
import AbstractDomains.Proofs.Numeric.Integers
import AbstractDomains.Proofs.PointwiseSet

/-!
# Assignment is substitution

After an assignment an expression has the value that it had before with the assigned expression in
place of the variable. Each occurrence keeps its own candidate types, by which operators accept it;
what stands there has the value it has under any types. If no value was assigned, there is no
environment left to find one in.

Results:
* `eval_withTypes`: the candidate types of the root do not matter for its value.
* `eval_substitute`: evaluation with another value for a variable is evaluation of a substituted
  expression.
* `assignment_is_substitution`: assignments over signs, over parities and over both.
-/

namespace AbstractDomains

open ValueDomain Analysis

/-! ## Expressions -/

/-- The expression with `replacement` for each occurrence of a variable, whose candidate types are
kept. -/
def Expr.substitute (e : Expr) (id : Identifier) (replacement : Expr) : Expr :=
  match e with
  | .var id' types => if id' = id then replacement.withTypes types else .var id' types
  | constant value types => constant value types
  | pushAny types => pushAny types
  | skip types => skip types
  | unary op arg types => unary op (arg.substitute id replacement) types
  | binary op left right types =>
    binary op (left.substitute id replacement) (right.substitute id replacement) types
  | ternary op left middle right types =>
    ternary op (left.substitute id replacement) (middle.substitute id replacement)
      (right.substitute id replacement) types

/-- So operands fit as before. -/
@[simp]
theorem Expr.types_substitute (e : Expr) (id : Identifier) (replacement : Expr) :
    (e.substitute id replacement).types = e.types := by
  cases e with
  | var id' types =>
    unfold substitute
    split
    · exact types_withTypes replacement types
    · rfl
  | _ => rfl

section Evaluation

variable {α : Type} [DecidableEq α] [ValueDomain α] {lookup lookup' : Identifier → Option α}
  {point : ProgramPoint}

variable (α) in
/-- Of an unknown value the same is known under all types. -/
def IgnoresTypes : Prop :=
  ∀ types types' point, (evalPushAny types point : Analysis α) = evalPushAny types' point

/-- **The candidate types of the root do not matter for its value.** -/
theorem eval_withTypes (hα : IgnoresTypes α) (e : Expr) (types : TypeSet) :
    eval lookup point (e.withTypes types) = eval lookup point e := by
  cases e with
  | pushAny types' => exact hα types types' point
  | _ => rfl

/-- **Evaluation with the value of an expression for a variable** is evaluation with the expression
in its place. -/
theorem eval_substitute (hα : IgnoresTypes α) {id : Identifier} {replacement : Expr}
    (hself : valueOf lookup' point id = eval lookup point replacement)
    (hother : ∀ id', id' ≠ id → valueOf lookup' point id' = valueOf lookup point id') (e : Expr) :
    eval lookup' point e = eval lookup point (e.substitute id replacement) := by
  induction e with
  | constant value types | pushAny types | skip types => rfl
  | var id' types =>
    show valueOf lookup' point id' = _
    unfold Expr.substitute
    by_cases hid : id' = id
    · rw [if_pos hid, eval_withTypes hα, hid, hself]
    · rw [if_neg hid]
      exact hother id' hid
  | unary op arg types ih => rw [Expr.substitute, eval, eval, Expr.types_substitute, ih]
  | binary op left right types ihl ihr =>
    rw [Expr.substitute, eval, eval, Expr.types_substitute, Expr.types_substitute, ihl, ihr]
  | ternary op left middle right types ihl ihm ihr =>
    rw [Expr.substitute, eval, eval, Expr.types_substitute, Expr.types_substitute,
      Expr.types_substitute, ihl, ihm, ihr]

end Evaluation

/-! ## Environments -/

/-- A domain in which what is not known is top: the value of an unbound variable and an unknown
value of any types. Nothing else counts as top, nor anything but bottom as bottom, and no hook
fails. -/
structure UnknownIsTop (α : Type) [DecidableEq α] [ValueDomain α] : Prop extends TotalDomain α where
  unbound_top : ∀ id point, evalVariable id point = .ok (top : α)
  pushAny_top : ∀ types point, evalPushAny types point = .ok (top : α)
  eq_top : ∀ {a : α}, isTop a = true → a = top
  isBottom_iff : ∀ {a : α}, isBottom a = true ↔ a = bottom

theorem UnknownIsTop.ignoresTypes {α : Type} [DecidableEq α] [ValueDomain α]
    (hD : UnknownIsTop α) : IgnoresTypes α :=
  fun types types' point => (hD.pushAny_top types point).trans (hD.pushAny_top types' point).symm

namespace Environment

variable {α : Type} [DecidableEq α] [ValueDomain α] {env : Environment α} {id : Identifier}
  {replacement e : Expr} {point : ProgramPoint} {a : α}

/-- An expression has a value after the assignment, which is the one before with the assigned
expression in place of the variable, unless no value was assigned. -/
structure AssignsBySubstitution (env : Environment α) (id : Identifier) (replacement e : Expr)
    (point : ProgramPoint) : Prop where
  defined : env.eval replacement point ≠ .ok bottom →
    ∃ env' a, env.assign id replacement point = .ok env' ∧ env'.eval e point = .ok a ∧
      env.eval (e.substitute id replacement) point = .ok a
  undefined : env.eval replacement point = .ok bottom →
    env.assign id replacement point = .ok .bottom

theorem assign_eq_set (h : env.eval replacement point = .ok a) :
    env.assign id replacement point = .ok (env.set id a) := by
  unfold assign
  rw [h]
  rfl

/-- What an expression evaluates to where the value of another one is bound. -/
theorem eval_set (hD : UnknownIsTop α) (ha : isBottom a = false)
    (h : env.eval replacement point = .ok a) :
    Environment.eval (env.set id a) e point = env.eval (e.substitute id replacement) point := by
  cases env with
  | bottom =>
    have hbottom : isBottom a = true := hD.isBottom_iff.mpr (Except.ok.inj h).symm
    exact absurd (ha.symm.trans hbottom) Bool.false_ne_true
  | entries m =>
    obtain ⟨n, hset, -⟩ := Pointwise.exists_set (m := m) (k := id) ha
    -- a top value is dropped, not stored, and the variable reads as top then
    have hread : ∀ id', valueOf n.get? point id' =
        .ok (if id' = id then a else Pointwise.read (.entries m) id') := fun id' => by
      rw [valueOf_eq_read hD.unbound_top, ← hset,
        Pointwise.read_set (Pointwise.entries_ne_bottom m) hD.eq_top ha]
    rw [hset]
    refine eval_substitute hD.ignoresTypes ?_ (fun id' hid => ?_) e
    · rw [hread, if_pos rfl]
      exact h.symm
    · rw [hread, if_neg hid, valueOf_eq_read hD.unbound_top]

/-- **Assignment is substitution.** -/
theorem assignsBySubstitution (hD : UnknownIsTop α) (env : Environment α) (id : Identifier)
    (replacement e : Expr) (point : ProgramPoint) :
    env.AssignsBySubstitution id replacement e point := by
  obtain ⟨a, ha⟩ : (env.eval replacement point).Succeeds := eval_succeeds hD.toTotalDomain ..
  refine ⟨fun hdefined => ?_, fun hundef => ?_⟩
  · have hne : isBottom a = false := Bool.eq_false_iff.mpr fun hb => by
      rw [ha, hD.isBottom_iff.mp hb] at hdefined
      exact hdefined rfl
    obtain ⟨b, hb⟩ : (env.eval (e.substitute id replacement) point).Succeeds :=
      eval_succeeds hD.toTotalDomain ..
    exact ⟨env.set id a, b, assign_eq_set ha, (eval_set hD hne ha).trans hb, hb⟩
  · rw [assign_eq_set hundef, Pointwise.set_eq_bottom_iff.mpr (.inr (hD.isBottom_iff.mpr rfl))]

end Environment

/-! ## The domains -/

theorem Sign.unknownIsTop : UnknownIsTop Sign where
  toTotalDomain := totalDomain
  unbound_top _ _ := rfl
  pushAny_top _ _ := rfl
  eq_top := of_decide_eq_true
  isBottom_iff := decide_eq_true_iff

theorem Parity.unknownIsTop : UnknownIsTop Parity where
  toTotalDomain := totalDomain
  unbound_top _ _ := rfl
  pushAny_top _ _ := rfl
  eq_top := of_decide_eq_true
  isBottom_iff := decide_eq_true_iff

theorem SignParity.unknownIsTop : UnknownIsTop SignParity where
  toTotalDomain := totalDomain
  unbound_top _ _ := rfl
  pushAny_top _ _ := rfl
  eq_top := of_decide_eq_true
  isBottom_iff := decide_eq_true_iff

/-- **Assignment is substitution**, in all environments of signs, of parities and of both: what an
expression evaluates to after a value was assigned to a variable is what it evaluates to before,
with the assigned expression in place of the variable under the types that the variable has there.
Where no value is assigned nothing is left. -/
theorem assignment_is_substitution (id : Identifier) (replacement e : Expr) (point : ProgramPoint) :
    (∀ env : Environment Sign, env.AssignsBySubstitution id replacement e point) ∧
    (∀ env : Environment Parity, env.AssignsBySubstitution id replacement e point) ∧
    ∀ env : Environment SignParity, env.AssignsBySubstitution id replacement e point :=
  ⟨fun env => env.assignsBySubstitution Sign.unknownIsTop id replacement e point,
    fun env => env.assignsBySubstitution Parity.unknownIsTop id replacement e point,
    fun env => env.assignsBySubstitution SignParity.unknownIsTop id replacement e point⟩

/-- The square of a variable. -/
def squareOf (id : Identifier) : Expr :=
  let number := TypeSet.single .numeric
  .binary .numericMul (.var id number) (.var id number) number

/-- A variable that is assigned its own square, and one that is assigned any number: the environment
drops what it knew of the second one. -/
theorem assignment_is_substitution_of_square :
    let env : Environment Sign := .entries (.ofList [("x", .minus), ("y", .plus)])
    let number := TypeSet.single .numeric
    let difference : Expr := .binary .numericSub (.var "y" number) (.var "x" number) number
    let any : Expr := .pushAny number
    env.eval (squareOf "x") ⟨"test"⟩ ≠ .ok .bottom ∧
      (∃ env' a, env.assign "x" (squareOf "x") ⟨"test"⟩ = .ok env' ∧
        env'.eval difference ⟨"test"⟩ = .ok a ∧
        env.eval (.binary .numericSub (.var "y" number) (squareOf "x") number) ⟨"test"⟩ = .ok a) ∧
      env.eval any ⟨"test"⟩ ≠ .ok .bottom ∧
      env.assign "y" any ⟨"test"⟩ = .ok (.entries (.ofList [("x", .minus)])) ∧
      ∃ env' a, env.assign "y" any ⟨"test"⟩ = .ok env' ∧ env'.eval difference ⟨"test"⟩ = .ok a ∧
        env.eval (.binary .numericSub any (.var "x" number) number) ⟨"test"⟩ = .ok a := by
  intro env number difference any
  have hsquare : env.eval (squareOf "x") ⟨"test"⟩ ≠ .ok .bottom := by decide
  have hany : env.eval any ⟨"test"⟩ ≠ .ok .bottom := by decide
  exact ⟨hsquare, ((assignment_is_substitution "x" _ difference ⟨"test"⟩).1 env).defined hsquare,
    hany, by decide, ((assignment_is_substitution "y" any difference ⟨"test"⟩).1 env).defined hany⟩

end AbstractDomains
