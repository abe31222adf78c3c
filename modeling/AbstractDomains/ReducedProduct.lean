import AbstractDomains.ValueDomain

/-!
# Reduced products

A reduced product pairs values of two domains that describe the same things, so that it describes
what both of them do. A reduction lets each component sharpen the other; it runs after every
operation and may only move components down. The product is a value domain again, so products
nest.
-/

namespace AbstractDomains

/-- The order of pairs whose components are both in order; the left ones are compared first. -/
def componentwise {α β : Type} [DecidableEq α] [DecidableEq β] [AbstractLattice α]
    [AbstractLattice β] (p q : α × β) : Analysis Bool := do
  if ← leq p.1 q.1 then leq p.2 q.2 else return false

/-- How the components of a product sharpen each other, and how reduced pairs are ordered. -/
structure Reduction (α β : Type) [DecidableEq α] [DecidableEq β] [AbstractLattice α]
    [AbstractLattice β] where
  /-- The sharpened pair. Bottom in either component stands for bottom. -/
  reduce : α → β → Analysis (α × β)
  /-- The order on reduced pairs, componentwise if nothing better is known. -/
  leq : α × β → α × β → Analysis Bool := componentwise

/-- The reduction that leaves every pair as it is. -/
def Reduction.none {α β : Type} [DecidableEq α] [DecidableEq β] [AbstractLattice α]
    [AbstractLattice β] : Reduction α β where
  reduce a b := .ok (a, b)

variable {α β : Type} [DecidableEq α] [DecidableEq β]

/-- A pair of values of two domains. -/
structure ReducedProduct [AbstractLattice α] [AbstractLattice β] (r : Reduction α β) where
  left : α
  right : β

/-- The product without a reduction. -/
abbrev PlainProduct (α β : Type) [DecidableEq α] [DecidableEq β] [AbstractLattice α]
    [AbstractLattice β] :=
  ReducedProduct (Reduction.none (α := α) (β := β))

namespace ReducedProduct

section Lattice

variable [AbstractLattice α] [AbstractLattice β] {r : Reduction α β}

@[ext]
theorem ext {p q : ReducedProduct r} (hl : p.left = q.left) (hr : p.right = q.right) : p = q := by
  cases p
  cases q
  simp_all

instance : DecidableEq (ReducedProduct r) := fun p q =>
  decidable_of_iff (p.left = q.left ∧ p.right = q.right)
    ⟨fun h => ext h.1 h.2, fun h => h ▸ ⟨rfl, rfl⟩⟩

/-- Everything, and the only pair with top in both components. -/
protected def top : ReducedProduct r :=
  ⟨AbstractDomains.top, AbstractDomains.top⟩

/-- Nothing, with bottom in both components. -/
protected def bottom : ReducedProduct r :=
  ⟨AbstractDomains.bottom, AbstractDomains.bottom⟩

variable [Describe α] [Describe β]

instance : Describe (ReducedProduct r) where
  describe p := s!"ReducedProduct({describe p.left}, {describe p.right})"

/--
The reduced pair of two values; bottom if either is bottom, before or after the reduction. Fails if
the reduction moved a component up.
-/
def pair (left : α) (right : β) : Analysis (ReducedProduct r) :=
  if isBottom left || isBottom right then .ok .bottom
  else do
    let reduced ← r.reduce left right
    if ← componentwise reduced (left, right) then
      return if isBottom reduced.1 || isBottom reduced.2 then .bottom else ⟨reduced.1, reduced.2⟩
    else throw (inconsistent reduced (left, right))
where
  inconsistent (reduced given : α × β) : AnalysisError :=
    .inconsistentReduction (describe reduced.1, describe reduced.2)
      (describe given.1, describe given.2)

/-- The reduced pair of the results of two steps, the left one first. -/
def both (left : Analysis α) (right : Analysis β) : Analysis (ReducedProduct r) := do
  let l ← left
  let r ← right
  pair l r

instance : AbstractLattice (ReducedProduct r) where
  top := .top
  bottom := .bottom
  joinProper p q := both (join p.left q.left) (join p.right q.right)
  meetProper p q := both (meet p.left q.left) (meet p.right q.right)
  widenProper p q := both (widen p.left q.left) (widen p.right q.right)
  narrowProper p q := both (narrow p.left q.left) (narrow p.right q.right)
  leqProper p q := r.leq (p.left, p.right) (q.left, q.right)

instance [ToString α] [ToString β] : ToString (ReducedProduct r) where
  toString p := s!"({p.left}, {p.right})"

end Lattice

section Values

open ValueDomain

variable [ValueDomain α] [ValueDomain β] [Describe α] [Describe β] {r : Reduction α β}

/-- The definite answer of either component, the left one first. -/
def either (left right : Analysis Satisfiability) : Analysis Satisfiability := do
  let l ← left
  let r ← right
  return l.orElse r

instance : ValueDomain (ReducedProduct r) where
  evalNull point := both (evalNull point) (evalNull point)
  evalNonNull value point := both (evalNonNull value point) (evalNonNull value point)
  evalVariable id point := both (evalVariable id point) (evalVariable id point)
  evalPushAny types point := both (evalPushAny types point) (evalPushAny types point)
  evalUnary op p point := both (evalUnary op p.left point) (evalUnary op p.right point)
  evalBinary op p q point :=
    both (evalBinary op p.left q.left point) (evalBinary op p.right q.right point)
  evalTernary op p q s point :=
    both (evalTernary op p.left q.left s.left point) (evalTernary op p.right q.right s.right point)
  satisfiesValue p point := either (satisfiesValue p.left point) (satisfiesValue p.right point)
  satisfiesUnary op p point :=
    either (satisfiesUnary op p.left point) (satisfiesUnary op p.right point)
  satisfiesBinary op p q point := match op with
    | .comparisonEq => unequalIfIncomparable p q
    | op => either (satisfiesBinary op p.left q.left point) (satisfiesBinary op p.right q.right point)
  satisfiesTernary op p q s point :=
    either (satisfiesTernary op p.left q.left s.left point)
      (satisfiesTernary op p.right q.right s.right point)

end Values

end ReducedProduct

end AbstractDomains
