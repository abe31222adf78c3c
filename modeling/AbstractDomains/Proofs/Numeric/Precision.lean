import AbstractDomains.Proofs.ProductPrecision
import AbstractDomains.Proofs.Numeric.Monotonicity

/-!
# Signs and parities against their product

A pair of a sign and a parity is compared with its two parts: with the analyses that look for signs
alone and for parities alone in the same program. It is never less precise than they are, and more
so where one of them finds that there is no value.

Results:
* `PlainProduct.eval_eq_smash`: the plain product of any two domains is their two analyses, smashed.
* `SignParity.eval_below_parts`: the reduced pair of a sign and a parity is below both of its parts.
-/

namespace AbstractDomains

open ValueDomain ReducedProduct

theorem Sign.componentDomain : ComponentDomain Sign where
  toTotalDomain := Sign.totalDomain
  skip_bottom _ := rfl
  isBottom_bottom := rfl
  isBottom_top := rfl

theorem Parity.componentDomain : ComponentDomain Parity where
  toTotalDomain := Parity.totalDomain
  skip_bottom _ := rfl
  isBottom_bottom := rfl
  isBottom_top := rfl

/-- A quotient and its divisor added up. -/
def quotientPlusDivisor : Expr :=
  let number := TypeSet.single .numeric
  .binary .numericAdd (.binary .numericDiv (.var "x" number) (.var "y" number) number)
    (.var "y" number) number

/-- The values of two variables. -/
def lookupPair {α : Type} (x y : α) (id : Identifier) : Option α :=
  if id = "x" then some x else if id = "y" then some y else none

theorem of_lookupPair {α : Type} {P : α → Prop} {x y : α} (hx : P x) (hy : P y) (id : Identifier)
    (p : α) (h : lookupPair x y id = some p) : P p := by
  unfold lookupPair at h
  split at h
  · exact Option.some.inj h ▸ hx
  · split at h
    · exact Option.some.inj h ▸ hy
    · cases h

/-! ## Without the reduction -/

namespace PlainProduct

variable {α β : Type} [DecidableEq α] [DecidableEq β] [ValueDomain α] [ValueDomain β] [Describe α]
  [Describe β]

/-- **The plain product is two independent analyses, smashed**: whatever pairs are found for the
variables, the value of an expression is the pair of the values that the two domains find on their
own, and bottom if either of those is. -/
theorem eval_eq_smash (hα : ComponentDomain α) (hβ : ComponentDomain β)
    (lookup : Identifier → Option (PlainProduct α β))
    (hl : ∀ id p, lookup id = some p → p.Built (fun _ => True) fun _ => True) (e : Expr)
    (point : ProgramPoint) :
    ∃ a b, eval (leftLookup lookup) point e = .ok a ∧
      eval (rightLookup lookup) point e = .ok b ∧ eval lookup point e = .ok (smash a b) := by
  have hsmashed : ∀ id p, lookup id = some p → p.Smashed := fun id p hid =>
    (hl id p hid).smashed hα.isBottom_top hβ.isBottom_top
  exact eval_isSmashOf hα hβ hsmashed e

/-- No sign is left for a quotient by zero, but a parity; a quotient by `-1` has both. -/
theorem eval_eq_smash_of_quotient :
    let byZero := lookupPair (⟨.plus, .odd⟩ : PlainProduct Sign Parity) ⟨.zero, .even⟩
    let byNegative := lookupPair (⟨.plus, .odd⟩ : PlainProduct Sign Parity) ⟨.minus, .odd⟩
    eval (leftLookup byZero) ⟨"test"⟩ quotientPlusDivisor = .ok .bottom ∧
      eval (rightLookup byZero) ⟨"test"⟩ quotientPlusDivisor = .ok .top ∧
      (∃ s q, eval (leftLookup byZero) ⟨"test"⟩ quotientPlusDivisor = .ok s ∧
        eval (rightLookup byZero) ⟨"test"⟩ quotientPlusDivisor = .ok q ∧
        eval byZero ⟨"test"⟩ quotientPlusDivisor = .ok (smash s q)) ∧
      smash Sign.bottom Parity.top = .bottom ∧
      (∃ s q, eval (leftLookup byNegative) ⟨"test"⟩ quotientPlusDivisor = .ok s ∧
        eval (rightLookup byNegative) ⟨"test"⟩ quotientPlusDivisor = .ok q ∧
        eval byNegative ⟨"test"⟩ quotientPlusDivisor = .ok (smash s q)) ∧
      eval byNegative ⟨"test"⟩ quotientPlusDivisor = .ok ⟨.minus, .top⟩ := by
  intro byZero byNegative
  have hbuilt : ∀ {s : Sign} {q : Parity} {p : PlainProduct Sign Parity}, pair s q = .ok p →
      p.Built (fun _ => True) fun _ => True := .pair trivial trivial
  have hodd := hbuilt (s := .plus) (q := .odd) rfl
  refine ⟨rfl, rfl, ?_, rfl, ?_, rfl⟩
  · exact eval_eq_smash Sign.componentDomain Parity.componentDomain byZero
      (of_lookupPair hodd (hbuilt (s := .zero) (q := .even) rfl)) _ _
  · exact eval_eq_smash Sign.componentDomain Parity.componentDomain byNegative
      (of_lookupPair hodd (hbuilt (s := .minus) (q := .odd) rfl)) _ _

end PlainProduct

/-! ## With the reduction -/

namespace SignParity

/-- **Pairs of a sign and a parity are at least as precise as either part**: for every expression,
whatever pairs are found for the variables, evaluation succeeds with a pair whose sign is below the
one that signs alone find, and whose parity is below the one that parities alone find. -/
theorem eval_below_parts (lookup : Identifier → Option SignParity)
    (hl : ∀ id p, lookup id = some p → SignParity.Built p) (e : Expr) (point : ProgramPoint) :
    ∃ p s q, eval lookup point e = .ok p ∧ eval (leftLookup lookup) point e = .ok s ∧
      eval (rightLookup lookup) point e = .ok q ∧ Below p.left s ∧ Below p.right q := by
  have hsmashed : ∀ id p, lookup id = some p → p.Smashed := fun id p hid =>
    (hl id p hid).smashed rfl rfl
  exact eval_below_components Sign.latticeOn Parity.latticeOn reduction_total Sign.hooksRelated
    Parity.hooksRelated Sign.componentDomain Parity.componentDomain hsmashed e

/-- Parities alone do not see that a quotient by zero has no value. -/
theorem eval_below_parts_of_quotient :
    let lookup := lookupPair (⟨.plus, .odd⟩ : SignParity) ⟨.zero, .even⟩
    eval lookup ⟨"test"⟩ quotientPlusDivisor = .ok .bottom ∧
      eval (leftLookup lookup) ⟨"test"⟩ quotientPlusDivisor = .ok .bottom ∧
      eval (rightLookup lookup) ⟨"test"⟩ quotientPlusDivisor = .ok .top ∧
      ∃ p s q, eval lookup ⟨"test"⟩ quotientPlusDivisor = .ok p ∧
        eval (leftLookup lookup) ⟨"test"⟩ quotientPlusDivisor = .ok s ∧
        eval (rightLookup lookup) ⟨"test"⟩ quotientPlusDivisor = .ok q ∧ Below p.left s ∧
        Below p.right q := by
  intro lookup
  have hx : SignParity.Built ⟨.plus, .odd⟩ := .pair (a := .plus) (b := .odd) trivial trivial rfl
  have hy : SignParity.Built ⟨.zero, .even⟩ := .pair (a := .zero) (b := .even) trivial trivial rfl
  exact ⟨rfl, rfl, rfl, eval_below_parts lookup (of_lookupPair hx hy) _ _⟩

end SignParity

end AbstractDomains
