import AbstractDomains.Proofs.NoFailure
import AbstractDomains.Proofs.CanonicalForm

/-!
# The sides of an assumed equality

An equality that is assumed restricts one variable, the one on its left if there is one. The sides
can be swapped as long as there is only one variable that can be meant. Of two variables that read
differently, each order of the sides restricts its own one.

Results:
* `Pointwise.set_eq_set_iff`: when setting one of two keys to the meet of both is setting the other.
* `Environment.assume_swapped`, `Environment.assume_variables`: equalities without and with two
  variables.
* `assumed_equalities_swap`: when the sides of an equality can be swapped.
-/

namespace AbstractDomains

open ValueDomain

/-! ## Setting keys -/

namespace Pointwise

variable {κ α : Type} [Ord κ] [DecidableEq κ] [Std.TransOrd κ] [Std.LawfulEqOrd κ] [DecidableEq α]
  [AbstractLattice α] {P : α → Prop} {R : α → α → Prop} {s : Pointwise κ α} {k k' : κ} {a : α}

/-- **Setting either key to the meet of both** is the same iff they read the same, or no state is
left. -/
theorem set_eq_set_iff (h : LatticeOrder P R) (hs : Canonical P s)
    (ha : meet (s.read k) (s.read k') = .ok a) :
    s.set k a = s.set k' a ↔ s.read k = s.read k' ∨ s.set k a = bottom := by
  have hk : P (s.read k) := hs.read_mem h.toOrderOn k
  have hk' : P (s.read k') := hs.read_mem h.toOrderOn k'
  have hmem : P a := (h.isMeet_of_meet hk hk' ha).mem
  constructor
  · intro hset
    by_cases hbottom : s.set k a = bottom
    · exact .inr hbottom
    · refine .inl ?_
      rw [set_eq_bottom_iff, not_or, Bool.not_eq_true] at hbottom
      obtain ⟨hne, hb⟩ := hbottom
      by_cases heq : k = k'
      · rw [heq]
      · calc s.read k = (s.set k' a).read k := (read_set_of_ne heq hb).symm
          _ = (s.set k a).read k := by rw [hset]
          _ = a := read_set_self h.toOrderOn hne hmem hb
          _ = (s.set k' a).read k' := (read_set_self h.toOrderOn hne hmem hb).symm
          _ = (s.set k a).read k' := by rw [hset]
          _ = s.read k' := read_set_of_ne (Ne.symm heq) hb
  · rintro (hread | hbottom)
    · rw [hread, meet_self] at ha
      obtain rfl := Except.ok.inj ha
      rw [hs.set_read h.toOrderOn k', ← hread, hs.set_read h.toOrderOn k]
    · rw [hbottom]
      exact (set_eq_bottom_iff.mpr (set_eq_bottom_iff.mp hbottom)).symm

end Pointwise

/-! ## Swapping the sides -/

section Domains

variable {α : Type} [DecidableEq α] [ValueDomain α] {P : α → Prop} {R : α → α → Prop}

theorem unequalIfIncomparable_comm (hleq : ∀ a b : α, (leq a b).Succeeds) (a b : α) :
    unequalIfIncomparable a b = unequalIfIncomparable b a := by
  obtain ⟨x, hx⟩ := hleq a b
  obtain ⟨y, hy⟩ := hleq b a
  unfold unequalIfIncomparable
  rw [hx, hy]
  cases x <;> cases y <;> rfl

/-- A domain that never fails, knows nothing of variables that are not bound, and answers equalities
alike from both sides. -/
structure EqualityDomain (P : α → Prop) (R : α → α → Prop) : Prop where
  domainOn : DomainOn P R
  neverFails : NeverFails α
  unbound : ∀ id point, evalVariable id point = .ok (top : α)
  equality_comm : ∀ (a b : α) point,
    satisfiesBinary .comparisonEq a b point = satisfiesBinary .comparisonEq b a point

omit [DecidableEq α] [ValueDomain α] in
/-- One variable at most is equated, whichever side it stands on. -/
theorem Expr.equatedVariable?_swap {l r : Expr} {types : TypeSet}
    (h : ∀ x tx y ty, l = .var x tx → r ≠ .var y ty) :
    (Expr.binary .comparisonEq l r types).equatedVariable? =
      (Expr.binary .comparisonEq r l types).equatedVariable? := by
  cases l with
  | var x tx =>
    cases r with
    | var y ty => exact absurd rfl (h x tx y ty rfl)
    | _ => rfl
  | _ => cases r <;> rfl

namespace Environment

variable {env a b : Environment α} {l r : Expr} {x y : Identifier} {tx ty types : TypeSet}
  {point : ProgramPoint}

/-- How the sides of an equality matter. They can be swapped, unless both are variables that read
differently and there is a state left: of two variables, the one on the left is restricted. -/
structure EqualitySides (env : Environment α) : Prop where
  swapped : ∀ l r types point, ∃ a b,
    env.assume (.binary .comparisonEq l r types) point = .ok a ∧
    env.assume (.binary .comparisonEq r l types) point = .ok b ∧
    (a = b ↔ ∀ x tx y ty, l = .var x tx → r = .var y ty → env.read x = env.read y ∨ a = .bottom)
  of_variables : ∀ x tx y ty types point a,
    env.assume (.binary .comparisonEq (.var x tx) (.var y ty) types) point = .ok a → a ≠ .bottom →
    ∃ c, meet (env.read x) (env.read y) = .ok c ∧ a = env.set x c

theorem satisfies_swapped (hD : EqualityDomain P R) :
    env.satisfies (.binary .comparisonEq l r types) point =
      env.satisfies (.binary .comparisonEq r l types) point := by
  by_cases henv : env = .bottom
  · subst henv
    rfl
  · obtain ⟨v, hv⟩ := hD.neverFails.eval_in env l point
    obtain ⟨w, hw⟩ := hD.neverFails.eval_in env r point
    rw [satisfies_equality henv, satisfies_equality henv, hv, hw]
    simp only [bind, Except.bind]
    rw [Bool.or_comm, hD.equality_comm v w]

/-- An equality of one variable restricts it from either side. -/
theorem assume_swapped (hD : EqualityDomain P R)
    (h : ∀ x tx y ty, l = .var x tx → r ≠ .var y ty) :
    env.assume (.binary .comparisonEq l r types) point =
      env.assume (.binary .comparisonEq r l types) point := by
  unfold assume
  rw [satisfies_swapped hD, Expr.equatedVariable?_swap h]

/-- An equality of two variables restricts the left one to what both can be. -/
theorem assume_variables (hD : EqualityDomain P R)
    (h : env.assume (.binary .comparisonEq (.var x tx) (.var y ty) types) point = .ok a) :
    (env.satisfies (.binary .comparisonEq (.var x tx) (.var y ty) types) point = .ok .notSatisfied ∧
      a = .bottom) ∨
    (env.satisfies (.binary .comparisonEq (.var x tx) (.var y ty) types) point ≠ .ok .notSatisfied ∧
      ∃ c, meet (env.read x) (env.read y) = .ok c ∧ a = env.set x c) := by
  rcases assume_inv h with
    hrefuted | ⟨hs, ⟨heq, -⟩ | ⟨id, operand, other, v, w, c, heq, hv, hw, hc, ha⟩⟩
  · exact .inl hrefuted
  · cases heq
  · cases heq
    rw [eval_var hD.unbound] at hv hw
    obtain rfl := Except.ok.inj hv
    obtain rfl := Except.ok.inj hw
    exact .inr ⟨hs, c, hc, ha⟩

theorem assume_variables_swapped (hD : EqualityDomain P R) (henv : Pointwise.Canonical P env)
    (ha : env.assume (.binary .comparisonEq (.var x tx) (.var y ty) types) point = .ok a)
    (hb : env.assume (.binary .comparisonEq (.var y ty) (.var x tx) types) point = .ok b) :
    a = b ↔ env.read x = env.read y ∨ a = .bottom := by
  have hlattice := hD.domainOn.toLatticeOrder
  have hx : P (env.read x) := henv.read_mem hlattice.toOrderOn x
  have hy : P (env.read y) := henv.read_mem hlattice.toOrderOn y
  rcases assume_variables hD ha with ⟨hs, rfl⟩ | ⟨hs, c, hc, rfl⟩
  · rcases assume_variables hD hb with ⟨-, rfl⟩ | ⟨hs', -⟩
    · exact iff_of_true rfl (.inr rfl)
    · rw [satisfies_swapped hD] at hs'
      exact absurd hs hs'
  · rcases assume_variables hD hb with ⟨hs', -⟩ | ⟨-, d, hd, rfl⟩
    · rw [satisfies_swapped hD] at hs'
      exact absurd hs' hs
    · rw [hlattice.meet_comm hy hx, hc] at hd
      obtain rfl := Except.ok.inj hd
      exact Pointwise.set_eq_set_iff hlattice henv hc

/-- **The sides of an equality** in a canonical environment. -/
theorem equalitySides (hD : EqualityDomain P R) (henv : Pointwise.Canonical P env) :
    env.EqualitySides where
  swapped l r types point := by
    obtain ⟨a, ha⟩ := hD.neverFails.assume env (.binary .comparisonEq l r types) point
    obtain ⟨b, hb⟩ := hD.neverFails.assume env (.binary .comparisonEq r l types) point
    refine ⟨a, b, ha, hb, ?_⟩
    by_cases hvars : ∀ x tx y ty, l = .var x tx → r ≠ .var y ty
    · rw [assume_swapped hD hvars] at ha
      exact iff_of_true (Except.ok.inj (ha.symm.trans hb)) fun x tx y ty hl hr =>
        absurd hr (hvars x tx y ty hl)
    · push Not at hvars
      obtain ⟨x, tx, y, ty, rfl, rfl⟩ := hvars
      rw [assume_variables_swapped hD henv ha hb]
      constructor
      · intro h x' tx' y' ty' hl hr
        cases hl
        cases hr
        exact h
      · intro h
        exact h x tx y ty rfl rfl
  of_variables x tx y ty types point a ha hne := by
    rcases assume_variables hD ha with ⟨-, hbottom⟩ | ⟨-, hset⟩
    · exact absurd hbottom hne
    · exact hset

end Environment

end Domains

/-! ## The domains -/

theorem Sign.equalityDomain :
    EqualityDomain (fun _ : Sign => True) fun s t => s.below t = true where
  domainOn := domainOn
  neverFails := neverFails_of_total totalLattice totalDomain
  unbound _ _ := rfl
  equality_comm s t _ := by
    show satisfiesBinary .comparisonEq s t = satisfiesBinary .comparisonEq t s
    simp only [satisfiesBinary_eq, and_comm (a := t = zero),
      unequalIfIncomparable_comm totalLattice.operationsSucceed.leq t s]

theorem Parity.equalityDomain : EqualityDomain (fun _ : Parity => True) Parity.IsBelow where
  domainOn := domainOn
  neverFails := neverFails_of_total totalLattice totalDomain
  unbound _ _ := rfl
  equality_comm p q _ := unequalIfIncomparable_comm totalLattice.operationsSucceed.leq p q

theorem SignParity.equalityDomain : EqualityDomain Built ReducedProduct.ComponentsBelow where
  domainOn := domainOn
  neverFails := neverFails_of_total totalLattice totalDomain
  unbound _ _ := rfl
  equality_comm p q _ := unequalIfIncomparable_comm totalLattice.operationsSucceed.leq p q

/-- **When the sides of an equality can be swapped.** In every environment that is reached over
signs, over parities or over pairs of both, assuming `l == r` and assuming `r == l` leave the same
environment iff `l` and `r` are not two variables that read differently, or nothing is left. Of two
variables the one on the left is set to the meet of what both read, and the other one is kept. -/
theorem assumed_equalities_swap :
    (∀ env : Environment Sign, env.Reached (fun _ => True) → env.EqualitySides) ∧
    (∀ env : Environment Parity, env.Reached (fun _ => True) → env.EqualitySides) ∧
    ∀ env : Environment SignParity, env.Reached SignParity.Built → env.EqualitySides := by
  refine ⟨fun env henv => ?_, fun env henv => ?_, fun env henv => ?_⟩
  · exact Environment.equalitySides Sign.equalityDomain (henv.canonical Sign.domainOn)
  · exact Environment.equalitySides Parity.equalityDomain (henv.canonical Parity.domainOn)
  · exact Environment.equalitySides SignParity.equalityDomain (henv.canonical SignParity.domainOn)

/-- Where `x` is positive or zero, `x == 0` and `0 == x` both leave zero. -/
theorem assumed_equalities_swap_of_zero :
    let env : Environment Sign := Pointwise.set .top "x" .zeroPlus
    let x : Expr := .var "x" (.single .numeric)
    let zero : Expr := .ofConstant (.int 0)
    ∃ a, env.assume (.binary .comparisonEq x zero (.single .boolean)) ⟨"p"⟩ = .ok a ∧
      env.assume (.binary .comparisonEq zero x (.single .boolean)) ⟨"p"⟩ = .ok a ∧
      a = Pointwise.set .top "x" .zero := by
  intro env x zero
  have henv : env.Reached (fun _ => True) := .set "x" .top trivial
  obtain ⟨a, b, ha, hb, hab⟩ :=
    (assumed_equalities_swap.1 env henv).swapped x zero (.single .boolean) ⟨"p"⟩
  have hconstant : ∀ id types, zero ≠ .var id types := by simp [zero, Expr.ofConstant]
  obtain rfl : a = b := hab.mpr fun _ _ y ty _ hzero => absurd hzero (hconstant y ty)
  have hvalue : env.assume (.binary .comparisonEq x zero (.single .boolean)) ⟨"p"⟩ =
      .ok (Pointwise.set .top "x" .zero) := by decide
  exact ⟨a, ha, hb, Except.ok.inj (ha.symm.trans hvalue)⟩

/-- Where `x` is positive and nothing is known of `y`, `x == y` tells nothing new of `x`, but
`y == x` tells that `y` is positive. -/
theorem assumed_equality_of_variables_not_symmetric :
    let env : Environment Sign := Pointwise.set .top "x" .plus
    let x : Expr := .var "x" (.single .numeric)
    let y : Expr := .var "y" (.single .numeric)
    env.Reached (fun _ => True) ∧
      env.assume (.binary .comparisonEq x y (.single .boolean)) ⟨"p"⟩ = .ok env ∧
      env.assume (.binary .comparisonEq y x (.single .boolean)) ⟨"p"⟩ = .ok (env.set "y" .plus) ∧
      env ≠ env.set "y" .plus := by
  intro env x y
  exact ⟨.set "x" .top trivial, by decide, by decide, by decide⟩

end AbstractDomains
