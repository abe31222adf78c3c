import AbstractDomains.ValueDomain

/-!
# Parities

The flat lattice of parities: "even" and "odd" lie between bottom and top and are not comparable.
Only negation, sums, differences and products have a parity of their own.
-/

namespace AbstractDomains

/-- What is known of the parity of an integer. -/
inductive Parity where
  | bottom
  | even
  | odd
  | top
deriving DecidableEq

namespace Parity

/-- How a parity is displayed. -/
def symbol : Parity → String
  | bottom => "⊥"
  | even => "even"
  | odd => "odd"
  | top => "⊤"

instance : Keyword Parity where
  all := [bottom, even, odd, top]
  word := symbol
  find?_word := by intro a; cases a <;> rfl

instance : ToString Parity := ⟨symbol⟩

instance : Describe Parity where
  describe
    | bottom => "Bottom"
    | even => "Even"
    | odd => "Odd"
    | top => "Top"

/-- The parity of an integer. -/
def ofInt (n : Int) : Parity :=
  if n % 2 = 0 then even else odd

/-- Whether the parity is known. -/
def isConcrete : Parity → Bool
  | even | odd => true
  | _ => false

/-! ## Arithmetic -/

/-- The parity of the opposite number. -/
def negate (p : Parity) : Parity :=
  p

/-- The parity of a sum, and of a difference. -/
def add : Parity → Parity → Parity
  | bottom, _ => bottom
  | _, bottom => bottom
  | top, _ => top
  | _, top => top
  | p, q => if p = q then even else odd

/-- The parity of a product. -/
def mul : Parity → Parity → Parity
  | bottom, _ => bottom
  | _, bottom => bottom
  | even, _ => even
  | _, even => even
  | odd, odd => odd
  | _, _ => top

/-! ## Lattice and values -/

instance : AbstractLattice Parity where
  top := top
  bottom := bottom
  joinProper _ _ := .ok top
  meetProper _ _ := .ok bottom
  leqProper _ _ := .ok false

/-- The parity of the result of an operator on one operand. -/
def evalUnary : UnaryOp → Parity → Parity
  | .numericNeg, p => p.negate
  | _, _ => top

/-- The parity of the result of an operator on two operands. -/
def evalBinary : BinaryOp → Parity → Parity → Parity
  | .numericAdd, p, q => p.add q
  | .numericSub, p, q => p.add q
  | .numericMul, p, q => p.mul q
  | _, _, _ => top

/-- The parity of a constant; only numbers have one. -/
def ofConstant : Constant → Parity
  | .int n => ofInt n.toInt
  | _ => top

instance : ValueDomain Parity where
  evalNonNull value _ := .ok (ofConstant value)
  evalUnary op p _ := .ok (evalUnary op p)
  evalBinary op p q _ := .ok (evalBinary op p q)

end Parity

end AbstractDomains
