import AbstractDomains.Proofs.Substitution

/-!
# Independent assignments commute

What is found for an expression or a condition rests on the variables that occur in it. So whatever
happens to another variable makes no difference, unless no environment is left, and two assignments
neither of which reads what the other one writes can be swapped. If either of them has no value,
nothing is left in either order.

Results:
* `eval_congr`, `satisfies_congr`: lookups that agree on the variables of an expression.
* `Environment.sameFor_set`, `Environment.sameFor_forget`: another variable is bound or forgotten.
* `Environment.assign_swap`, `independent_assignments_commute`: two variables are assigned in either
  order.
-/

namespace AbstractDomains

open ValueDomain Analysis

/-- The variables that occur in an expression. -/
def Expr.variables : Expr → List Identifier
  | .var id _ => [id]
  | unary _ arg _ => arg.variables
  | binary _ left right _ => left.variables ++ right.variables
  | ternary _ left middle right _ => left.variables ++ (middle.variables ++ right.variables)
  | constant _ _ | pushAny _ | skip _ => []

variable {α : Type} [DecidableEq α] [ValueDomain α]

/-! ## Lookups that agree -/

section Lookups

variable {lookup lookup' : Identifier → Option α} {point : ProgramPoint}

/-- **The value of an expression** rests on its variables. -/
theorem eval_congr {e : Expr} (h : ∀ id ∈ e.variables, lookup id = lookup' id) :
    eval lookup point e = eval lookup' point e := by
  induction e with
  | constant value types | pushAny types | skip types => rfl
  | var id types =>
    show valueOf lookup point id = valueOf lookup' point id
    unfold valueOf
    rw [h id List.mem_cons_self]
  | unary op arg types ih => rw [eval, eval, ih h]
  | binary op left right types ihl ihr =>
    obtain ⟨hl, hr⟩ := List.forall_mem_append.mp h
    rw [eval, eval, ihl hl, ihr hr]
  | ternary op left middle right types ihl ihm ihr =>
    obtain ⟨hl, hmr⟩ := List.forall_mem_append.mp h
    obtain ⟨hm, hr⟩ := List.forall_mem_append.mp hmr
    rw [eval, eval, ihl hl, ihm hm, ihr hr]

/-- **The answer for a condition** rests on its variables. -/
theorem satisfies_congr {e : Expr} (h : ∀ id ∈ e.variables, lookup id = lookup' id) :
    satisfies lookup point e = satisfies lookup' point e := by
  induction e using satisfies.induct with
  | case1 | case2 | case3 | case4 => simp only [satisfies]
  | case5 id types =>
    simp only [satisfies, valueOf]
    rw [h id List.mem_cons_self]
  | case6 arg types ih => rw [satisfies, satisfies, ih h]
  | case7 left right types ihl ihr | case8 left right types ihl ihr =>
    obtain ⟨hl, hr⟩ := List.forall_mem_append.mp h
    rw [satisfies, satisfies, ihl hl, ihr hr]
  | case9 op arg types hop | case10 op arg types hop =>
    have harg : ∀ id ∈ arg.variables, lookup id = lookup' id := h
    simp only [satisfies]
    rw [eval_congr harg]
  | case11 op left right types hand hor | case12 op left right types hand hor =>
    obtain ⟨hl, hr⟩ := List.forall_mem_append.mp h
    simp only [satisfies]
    rw [eval_congr hl, eval_congr hr]
  | case13 op left middle right types | case14 op left middle right types =>
    obtain ⟨hl, hmr⟩ := List.forall_mem_append.mp h
    obtain ⟨hm, hr⟩ := List.forall_mem_append.mp hmr
    rw [satisfies, satisfies, eval_congr hl, eval_congr hm, eval_congr hr]

end Lookups

/-! ## Environments -/

namespace Environment

variable {env env' : Environment α} {x y : Identifier} {e e₁ e₂ : Expr}
  {point point₁ point₂ : ProgramPoint} {a b : α}

/-- The same is found in two environments: the value of an expression, and whether it holds. -/
def SameFor (env env' : Environment α) (e : Expr) (point : ProgramPoint) : Prop :=
  env.eval e point = env'.eval e point ∧ env.satisfies e point = env'.satisfies e point

/-- Environments that store the same for the variables of an expression. -/
theorem sameFor_of_get? (hne : env ≠ .bottom) (hne' : env' ≠ .bottom)
    (h : ∀ id ∈ e.variables, env.get? id = env'.get? id) : env.SameFor env' e point := by
  cases env with
  | bottom => exact absurd rfl hne
  | entries m =>
    cases env' with
    | bottom => exact absurd rfl hne'
    | entries n => exact ⟨eval_congr h, satisfies_congr h⟩

/-- **Forgetting another variable** changes nothing. -/
theorem sameFor_forget (hx : x ∉ e.variables) : SameFor (env.forget x) env e point := by
  cases env with
  | bottom => exact ⟨rfl, rfl⟩
  | entries m =>
    refine sameFor_of_get? (Pointwise.entries_ne_bottom _) (Pointwise.entries_ne_bottom m)
      fun id hid => ?_
    have hne : id ≠ x := fun h => hx (h ▸ hid)
    show (m.erase x).get? id = m.get? id
    rw [FinMap.get?_erase, if_neg hne]

/-- **Binding another variable** changes nothing, unless it is bound to bottom. -/
theorem sameFor_set (hx : x ∉ e.variables) (ha : isBottom a = false) :
    SameFor (env.set x a) env e point := by
  by_cases henv : env = .bottom
  · subst henv
    exact ⟨rfl, rfl⟩
  · have hset : env.set x a ≠ .bottom := by simp [Pointwise.set_eq_bottom_iff, henv, ha]
    refine sameFor_of_get? hset henv fun id hid => ?_
    exact Pointwise.get?_set_of_ne (fun h => hx (h ▸ hid)) ha

/-- A second assignment sets its variable to the value that its expression had at first, if the
first assignment is to another variable than those it reads. -/
theorem assign_set (hx : x ∉ e.variables) (hb : env.eval e point = .ok b) :
    assign (env.set x a) y e point = .ok ((env.set x a).set y b) := by
  by_cases ha : isBottom a = true
  · have hset : env.set x a = .bottom := Pointwise.set_eq_bottom_iff.mpr (.inr ha)
    rw [hset]
    rfl
  · have hsame : Environment.eval (env.set x a) e point = env.eval e point :=
      (sameFor_set hx (Bool.eq_false_iff.mpr ha)).1
    exact assign_eq_set (hsame.trans hb)

/-- Two assignments succeed in either order, and end in the same environment. -/
def AssignsInEitherOrder (env : Environment α) (x : Identifier) (e₁ : Expr) (point₁ : ProgramPoint)
    (y : Identifier) (e₂ : Expr) (point₂ : ProgramPoint) : Prop :=
  ∃ env₁ env₂ env', env.assign x e₁ point₁ = .ok env₁ ∧ env₁.assign y e₂ point₂ = .ok env' ∧
    env.assign y e₂ point₂ = .ok env₂ ∧ env₂.assign x e₁ point₁ = .ok env'

/-- **Independent assignments can be swapped.** -/
theorem assign_swap (hD : TotalDomain α) (hxy : x ≠ y) (hx : x ∉ e₂.variables)
    (hy : y ∉ e₁.variables) : env.AssignsInEitherOrder x e₁ point₁ y e₂ point₂ := by
  obtain ⟨a, ha⟩ : (env.eval e₁ point₁).Succeeds := eval_succeeds hD e₁
  obtain ⟨b, hb⟩ : (env.eval e₂ point₂).Succeeds := eval_succeeds hD e₂
  refine ⟨env.set x a, env.set y b, (env.set x a).set y b, assign_eq_set ha, assign_set hx hb,
    assign_eq_set hb, ?_⟩
  rw [Pointwise.set_comm hxy]
  exact assign_set hy ha

/-- What does not occur in an expression makes no difference for it: assignments that do not read
one another's variable commute, and other variables can be forgotten or bound to what is not
bottom. -/
structure RespectsIndependence (env : Environment α) : Prop where
  swap : ∀ {x y e₁ e₂ point₁ point₂}, x ≠ y → x ∉ e₂.variables → y ∉ e₁.variables →
    env.AssignsInEitherOrder x e₁ point₁ y e₂ point₂
  forget : ∀ {x e point}, x ∉ e.variables → SameFor (env.forget x) env e point
  set : ∀ {x a e point}, x ∉ e.variables → isBottom a = false →
    SameFor (env.set x a) env e point

theorem respectsIndependence (hD : TotalDomain α) (env : Environment α) :
    env.RespectsIndependence where
  swap := assign_swap hD
  forget := sameFor_forget
  set := sameFor_set

end Environment

/-- **Independent assignments commute**, in all environments of signs, of parities and of both, and
what happens to a variable makes no difference for an expression in which it does not occur. -/
theorem independent_assignments_commute :
    (∀ env : Environment Sign, env.RespectsIndependence) ∧
    (∀ env : Environment Parity, env.RespectsIndependence) ∧
    ∀ env : Environment SignParity, env.RespectsIndependence :=
  ⟨Environment.respectsIndependence Sign.totalDomain,
    Environment.respectsIndependence Parity.totalDomain,
    Environment.respectsIndependence SignParity.totalDomain⟩

/-- A variable that loses its value, and one that is assigned what has none, beside one that is
assigned a square. The square is the same if the first one is forgotten, or bound to another sign. -/
theorem independent_assignments_commute_of_square :
    let env : Environment Sign := .entries (.ofList [("x", .minus), ("z", .minus)])
    let any : Expr := .pushAny (.single .numeric)
    ("x" ∉ (squareOf "z").variables ∧ "y" ∉ any.variables ∧
      env.assign "x" any ⟨"test"⟩ = .ok (.entries (.ofList [("z", .minus)])) ∧
      env.AssignsInEitherOrder "x" any ⟨"test"⟩ "y" (squareOf "z") ⟨"test"⟩) ∧
    ("y" ∉ Expr.nothing.variables ∧ env.assign "x" .nothing ⟨"test"⟩ = .ok .bottom ∧
      env.AssignsInEitherOrder "x" .nothing ⟨"test"⟩ "y" (squareOf "z") ⟨"test"⟩) ∧
    Environment.SameFor (env.forget "x") env (squareOf "z") ⟨"test"⟩ ∧
    isBottom Sign.plus = false ∧ env.set "x" .plus ≠ env ∧
      Environment.SameFor (env.set "x" .plus) env (squareOf "z") ⟨"test"⟩ := by
  intro env any
  have hsquare : "x" ∉ (squareOf "z").variables := by decide
  have hany : "y" ∉ any.variables := List.not_mem_nil
  have hnothing : "y" ∉ Expr.nothing.variables := List.not_mem_nil
  have hxy : "x" ≠ "y" := by decide
  have hplus : isBottom Sign.plus = false := rfl
  obtain ⟨hswap, hforget, hset⟩ := independent_assignments_commute.1 env
  exact ⟨⟨hsquare, hany, by decide, hswap hxy hsquare hany⟩,
    ⟨hnothing, by decide, hswap hxy hsquare hnothing⟩, hforget hsquare,
    hplus, by decide, hset hsquare hplus⟩

end AbstractDomains
