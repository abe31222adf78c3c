import AbstractDomains.Proofs.AssumedEqualities
import AbstractDomains.Proofs.Numeric.ConclusiveOrder

/-!
# What an assumption removes

Assuming a condition only removes states. Mostly it removes all of them or none; only an equality
with a variable on one side can leave some, and then it tells more about that variable and nothing
about any other one. A variable is set to the meet of what it reads and what the other side
evaluates to, and such a meet is lower in the order that the domain decides too, where that is not
the order of its meets.

Results:
* `Environment.partWhere_of_assume`: what is left, in any domain that knows nothing of variables
  that are not bound.
* `Environment.assume_only_removes`: the same of signs, of parities and of pairs of both.
-/

namespace AbstractDomains

open ValueDomain

/-- The root of the expression is an equality, and the variable is one of its two sides. -/
def Expr.Equates (e : Expr) (id : Identifier) : Prop :=
  ∃ left right types, e = binary .comparisonEq left right types ∧
    ∃ types', left = .var id types' ∨ right = .var id types'

theorem Expr.equates_of_equatedVariable? {e operand other : Expr} {id : Identifier}
    (h : e.equatedVariable? = some (id, operand, other)) : e.Equates id := by
  obtain ⟨types', types, rfl, he | he⟩ := Environment.equatedVariable?_eq_some h
  · exact ⟨_, _, types, he, types', .inl rfl⟩
  · exact ⟨_, _, types, he, types', .inr rfl⟩

namespace Environment

variable {α : Type} [DecidableEq α] [ValueDomain α] {P : α → Prop} {R R' : α → α → Prop}
  {env env' : Environment α} {e : Expr} {point : ProgramPoint}

/-- `env'` is a part of `env`. If it is neither empty nor the whole, the condition equates some
variable, and what is stored for all others is the same in both. -/
structure PartWhere (e : Expr) (env env' : Environment α) : Prop where
  below : leq env' env = .ok true
  frame : env' = .bottom ∨ env' = env ∨
    ∃ id, e.Equates id ∧ ∀ x, x ≠ id → env'.get? x = env.get? x

/-- **What is left where a condition is assumed.** Meets are taken in the order `R`; the domain may
decide another order `R'` as long as that extends it. -/
theorem partWhere_of_assume (hD : DomainOn P R) (horder : OrderOn P R') (hleq : LeqDecides P R')
    (hR : ∀ {a b}, P a → P b → R a b → R' a b)
    (hunbound : ∀ id point, evalVariable id point = .ok (top : α))
    (henv : Pointwise.Canonical P env) (h : env.assume e point = .ok env') :
    env.PartWhere e env' := by
  have hdecides : LeqDecides (Pointwise.Canonical P : Environment α → Prop)
      (Pointwise.ReadsBelow R') := Pointwise.leqDecides horder hleq
  have hbelow : ∀ {env'}, Pointwise.Canonical P env' → Pointwise.ReadsBelow R' env' env →
      leq env' env = .ok true := fun henv' hreads => (hdecides.below_iff henv' henv).mpr hreads
  rcases assume_inv h with
    ⟨-, rfl⟩ | ⟨-, ⟨-, rfl⟩ | ⟨id, operand, other, v, w, c, heq, hv, hw, hc, rfl⟩⟩
  · exact ⟨hbelow trivial (.inl rfl), .inl rfl⟩
  · exact ⟨leq_self env', .inr (.inl rfl)⟩
  · have hmeet : IsMeet P R v w c :=
      hD.isMeet_of_meet (eval_mem hD henv hv) (eval_mem hD henv hw) hc
    obtain ⟨types, -, rfl, -⟩ := equatedVariable?_eq_some heq
    -- the first value that is met is the one the variable had
    obtain rfl : env.read id = v :=
      Except.ok.inj ((eval_var hunbound env id types point).symm.trans hv)
    have hlower : R' c (env.read id) := hR hmeet.mem (henv.read_mem horder id) hmeet.left
    refine ⟨hbelow (henv.set horder hmeet.mem)
      (Pointwise.readsBelow_set horder henv hmeet.mem hlower), ?_⟩
    refine or_iff_not_imp_left.mpr fun hset => .inr ⟨id, Expr.equates_of_equatedVariable? heq, ?_⟩
    obtain ⟨-, hb⟩ := not_or.mp (mt Pointwise.set_eq_bottom_iff.mpr hset)
    rw [Bool.not_eq_true] at hb
    exact fun x hx => Pointwise.get?_set_of_ne hx hb

theorem exists_part (hD : EqualityDomain P R) (horder : OrderOn P R') (hleq : LeqDecides P R')
    (hR : ∀ {a b}, P a → P b → R a b → R' a b) (henv : env.Reached P) (e : Expr)
    (point : ProgramPoint) : ∃ env', env.assume e point = .ok env' ∧ env.PartWhere e env' := by
  obtain ⟨env', h⟩ := hD.neverFails.assume env e point
  exact ⟨env', h, partWhere_of_assume hD.domainOn horder hleq hR hD.unbound
    (henv.canonical hD.domainOn) h⟩

end Environment

/-- Pairs that are in order in both components are so if their parities are compared first. -/
theorem SignParity.byParity_of_componentsBelow {p q : SignParity}
    (h : ReducedProduct.ComponentsBelow p q) : ByParity p q := by
  obtain ⟨hleft, hright⟩ := componentsBelow_iff.mp h
  by_cases heq : p.right = q.right
  · exact .inr ⟨heq, hleft⟩
  · exact .inl ⟨heq, hright⟩

namespace Environment

/-- **An assumption only removes states, and touches one variable at most.** In every environment
that is reached over signs, over parities or over pairs of both, every condition can be assumed and
leaves an environment that is below the old one. It is bottom, or the old one, or the condition is
an equality with a variable on one side and all other variables are as before. -/
theorem assume_only_removes (e : Expr) (point : ProgramPoint) :
    (∀ env : Environment Sign, env.Reached (fun _ => True) →
      ∃ env', env.assume e point = .ok env' ∧ env.PartWhere e env') ∧
    (∀ env : Environment Parity, env.Reached (fun _ => True) →
      ∃ env', env.assume e point = .ok env' ∧ env.PartWhere e env') ∧
    ∀ env : Environment SignParity, env.Reached SignParity.Built →
      ∃ env', env.assume e point = .ok env' ∧ env.PartWhere e env' := by
  refine ⟨fun env henv => ?_, fun env henv => ?_, fun env henv => ?_⟩
  · exact exists_part Sign.equalityDomain Sign.orderOn Sign.leqDecides (fun _ _ h => h) henv e point
  · exact exists_part Parity.equalityDomain Parity.orderOn Parity.leqDecides (fun _ _ h => h) henv e
      point
  · exact exists_part SignParity.equalityDomain SignParity.orderOn SignParity.leqDecides
      (fun _ _ => SignParity.byParity_of_componentsBelow) henv e point

/-- Where `x` is zero or negative, `3 < x` leaves nothing, and where it is even, `3 != x` leaves it
so. Where it is zero or positive, `3 == x` makes it positive and odd, and `y` stays as it is. -/
theorem assume_only_removes_of_three :
    let number : Expr := .ofConstant (.int 3)
    let condition (op : BinaryOp) : Expr :=
      .binary op number (.var "x" (.single .numeric)) (.single .boolean)
    let signs : Environment Sign := Pointwise.set .top "x" .zeroMinus
    let parities : Environment Parity := Pointwise.set .top "x" .even
    let pairs : Environment SignParity :=
      Pointwise.set (Pointwise.set .top "x" ⟨.zeroPlus, .top⟩) "y" ⟨.minus, .odd⟩
    (signs.assume (condition .comparisonLt) ⟨"p"⟩ = .ok .bottom ∧
      signs.PartWhere (condition .comparisonLt) .bottom) ∧
    (parities.assume (condition .comparisonNe) ⟨"p"⟩ = .ok parities ∧
      parities.PartWhere (condition .comparisonNe) parities) ∧
    pairs.assume (condition .comparisonEq) ⟨"p"⟩ = .ok (pairs.set "x" ⟨.plus, .odd⟩) ∧
      pairs.PartWhere (condition .comparisonEq) (pairs.set "x" ⟨.plus, .odd⟩) := by
  intro number condition signs parities pairs
  have hsigns : signs.assume (condition .comparisonLt) ⟨"p"⟩ = .ok .bottom := by decide
  have hparities : parities.assume (condition .comparisonNe) ⟨"p"⟩ = .ok parities := by decide
  have hpairs : pairs.assume (condition .comparisonEq) ⟨"p"⟩ =
      .ok (pairs.set "x" ⟨.plus, .odd⟩) := by decide
  have hreached : pairs.Reached SignParity.Built :=
    .set "y" (.set "x" .top (.pair (a := .zeroPlus) (b := .top) trivial trivial rfl))
      (.pair (a := .minus) (b := .odd) trivial trivial rfl)
  obtain ⟨env, h, hpart⟩ :=
    (assume_only_removes (condition .comparisonLt) ⟨"p"⟩).1 signs (.set "x" .top trivial)
  obtain rfl := Except.ok.inj (hsigns.symm.trans h)
  obtain ⟨env, h', hpart'⟩ :=
    (assume_only_removes (condition .comparisonNe) ⟨"p"⟩).2.1 parities (.set "x" .top trivial)
  obtain rfl := Except.ok.inj (hparities.symm.trans h')
  obtain ⟨env, h'', hpart''⟩ :=
    (assume_only_removes (condition .comparisonEq) ⟨"p"⟩).2.2 pairs hreached
  obtain rfl := Except.ok.inj (hpairs.symm.trans h'')
  exact ⟨⟨hsigns, hpart⟩, ⟨hparities, hpart'⟩, hpairs, hpart''⟩

end Environment

end AbstractDomains
