import AbstractDomains.Numeric.Parity
import AbstractDomains.Numeric.Sign
import AbstractDomains.ReducedProduct

/-!
# Sign and parity

The reduced product of sign and parity: zero is even, so an odd number is not zero.
-/

namespace AbstractDomains

namespace SignParity

/-- An odd number is not zero: its sign loses zero, and no sign is left if it was exactly zero. -/
def sharpen : Sign → Parity → Sign × Parity
  | .zero, .odd => (.bottom, .bottom)
  | .zeroMinus, .odd => (.minus, .odd)
  | .zeroPlus, .odd => (.plus, .odd)
  | sign, parity => (sign, parity)

/--
A pair with a known parity is below every pair without one; pairs that both have one, or both have
none, are below each other if their parities are equal and their signs are below each other.
-/
def leq : Sign × Parity → Sign × Parity → Analysis Bool
  | (sign, .top), (sign', .top) => AbstractLattice.leq sign sign'
  | _, (_, .top) => .ok true
  | (_, .top), _ => .ok false
  | (sign, parity), (sign', parity') =>
    if parity = parity' then AbstractLattice.leq sign sign' else .ok false

/-- The reduction of sign and parity. -/
def reduction : Reduction Sign Parity where
  reduce sign parity := .ok (sharpen sign parity)
  leq := leq

end SignParity

/-- Signs and parities that sharpen each other. -/
abbrev SignParity :=
  ReducedProduct SignParity.reduction

end AbstractDomains
