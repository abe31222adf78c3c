import AbstractDomains.Error

/-!
# Abstract lattices

`AbstractLattice` is what a set of abstract values provides: the extreme elements and the
operations on two distinct elements neither of which is extreme. `join`, `meet`, `widen`, `narrow`
and `leq` are the operations on all elements; they settle the trivial cases the same way for every
lattice.
-/

namespace AbstractDomains

/-- Abstract values with their operations on distinct elements that are neither top nor bottom. -/
class AbstractLattice (α : Type) [DecidableEq α] where
  /-- The element that describes everything. -/
  top : α
  /-- The element that describes nothing. -/
  bottom : α
  isTop : α → Bool := fun a => a = top
  isBottom : α → Bool := fun a => a = bottom
  joinProper : α → α → Analysis α
  meetProper : α → α → Analysis α
  leqProper : α → α → Analysis Bool
  /-- Lattices of finite height can join. -/
  widenProper : α → α → Analysis α := joinProper
  narrowProper : α → α → Analysis α := meetProper

namespace AbstractLattice

variable {α : Type} [DecidableEq α] [AbstractLattice α]

/-- An operation that moves up: bottom is neutral and top absorbs. -/
def upward (proper : α → α → Analysis α) (a b : α) : Analysis α :=
  if isBottom b || isTop a || a = b then .ok a
  else if isBottom a || isTop b then .ok b
  else proper a b

/-- An operation that moves down: top is neutral and bottom absorbs. -/
def downward (proper : α → α → Analysis α) (a b : α) : Analysis α :=
  if isTop b || isBottom a || a = b then .ok a
  else if isTop a || isBottom b then .ok b
  else proper a b

/-- What either element describes. -/
def join (a b : α) : Analysis α :=
  upward joinProper a b

/-- Used in place of `join` to make an iteration end; `a` is the previous iterate. -/
def widen (a b : α) : Analysis α :=
  upward widenProper a b

/-- What both elements describe. -/
def meet (a b : α) : Analysis α :=
  downward meetProper a b

/-- Used in place of `meet` to regain precision that widening lost. -/
def narrow (a b : α) : Analysis α :=
  downward narrowProper a b

/-- Whether `b` describes all that `a` does. -/
def leq (a b : α) : Analysis Bool :=
  if a = b || isBottom a || isTop b then .ok true
  else if isTop a || isBottom b then .ok false
  else leqProper a b

end AbstractLattice

export AbstractLattice (top bottom isTop isBottom join widen meet narrow leq)

end AbstractDomains
