import AbstractDomains.ValueDomain

/-!
# Signs

The lattice of signs, with "zero or positive" and "zero or negative" between the exact signs and
top:

```text
        ⊤
      /   \
    0-     0+
   /  \   /  \
  -    0      +
   \   |     /
       ⊥
```

A division or remainder is undefined only if the divisor is exactly zero.
-/

namespace AbstractDomains

/-- What is known of the sign of a number. -/
inductive Sign where
  | bottom
  | zero
  | plus
  | minus
  | zeroPlus
  | zeroMinus
  | top
deriving DecidableEq

namespace Sign

/-- How a sign is displayed. -/
def symbol : Sign → String
  | bottom => "⊥"
  | zero => "0"
  | plus => "+"
  | minus => "-"
  | zeroPlus => "0+"
  | zeroMinus => "0-"
  | top => "⊤"

instance : Keyword Sign where
  all := [bottom, zero, plus, minus, zeroPlus, zeroMinus, top]
  word := symbol
  find?_word := by intro a; cases a <;> rfl

instance : ToString Sign := ⟨symbol⟩

instance : Describe Sign where
  describe
    | bottom => "Bottom"
    | zero => "Zero"
    | plus => "Plus"
    | minus => "Minus"
    | zeroPlus => "ZeroPlus"
    | zeroMinus => "ZeroMinus"
    | top => "Top"

/-- The sign of an integer. -/
def ofInt (n : Int) : Sign :=
  if n < 0 then minus else if n = 0 then zero else plus

/-- Whether only numbers from zero upwards are described, and at least one. -/
def isNonNegative : Sign → Bool
  | zero | plus | zeroPlus => true
  | _ => false

/-- Whether only numbers from zero downwards are described, and at least one. -/
def isNonPositive : Sign → Bool
  | zero | minus | zeroMinus => true
  | _ => false

/-! ## Arithmetic -/

/-- The sign of the opposite number. -/
def negate : Sign → Sign
  | plus => minus
  | minus => plus
  | zeroPlus => zeroMinus
  | zeroMinus => zeroPlus
  | s => s

/-- The sign of a sum. -/
def add : Sign → Sign → Sign
  | bottom, _ => bottom
  | _, bottom => bottom
  | zero, t => t
  | plus, zero | plus, plus | plus, zeroPlus => plus
  | minus, zero | minus, minus | minus, zeroMinus => minus
  | zeroPlus, zero | zeroPlus, zeroPlus => zeroPlus
  | zeroPlus, plus => plus
  | zeroMinus, zero | zeroMinus, zeroMinus => zeroMinus
  | zeroMinus, minus => minus
  | _, _ => top

/-- The sign of a difference. -/
def sub (s t : Sign) : Sign :=
  s.add t.negate

/-- The sign of a product. -/
def mul : Sign → Sign → Sign
  | bottom, _ => bottom
  | _, bottom => bottom
  | zero, _ => zero
  | plus, t => t
  | minus, t => t.negate
  | _, zero => zero
  | zeroPlus, plus | zeroPlus, zeroPlus => zeroPlus
  | zeroPlus, minus | zeroPlus, zeroMinus => zeroMinus
  | zeroMinus, plus | zeroMinus, zeroPlus => zeroMinus
  | zeroMinus, minus | zeroMinus, zeroMinus => zeroPlus
  | _, _ => top

/-- The sign of an exact quotient. -/
def div : Sign → Sign → Sign
  | bottom, _ => bottom
  | _, bottom => bottom
  | _, zero => bottom
  | zero, _ => zero
  | plus, plus | plus, zeroPlus => plus
  | plus, minus | plus, zeroMinus => minus
  | minus, plus | minus, zeroPlus => minus
  | minus, minus | minus, zeroMinus => plus
  | zeroPlus, plus | zeroPlus, zeroPlus => zeroPlus
  | zeroPlus, minus | zeroPlus, zeroMinus => zeroMinus
  | zeroMinus, plus | zeroMinus, zeroPlus => zeroMinus
  | zeroMinus, minus | zeroMinus, zeroMinus => zeroPlus
  | _, _ => top

/-- The sign of a remainder, which is zero or has the sign of the dividend. -/
def rem : Sign → Sign → Sign
  | bottom, _ => bottom
  | _, bottom => bottom
  | _, zero => bottom
  | zero, _ => zero
  | plus, _ => zeroPlus
  | zeroPlus, _ => zeroPlus
  | minus, _ => zeroMinus
  | zeroMinus, _ => zeroMinus
  | top, _ => top

/-! ## Comparison -/

/-- Whether every number of the first sign is less than every one of the second. -/
def strictlyBelow : Sign → Sign → Bool
  | minus, t => t.isNonNegative
  | zero, plus => true
  | zeroMinus, plus => true
  | _, _ => false

/-- Whether no number of the first sign is greater than one of the second. -/
def weaklyBelow (s t : Sign) : Bool :=
  s.isNonPositive && t.isNonNegative || s.strictlyBelow t

/-! ## Lattice -/

/-- The least sign above two distinct ones that are neither bottom nor top. -/
def joinProper (s t : Sign) : Sign :=
  if s.isNonNegative && t.isNonNegative then zeroPlus
  else if s.isNonPositive && t.isNonPositive then zeroMinus
  else top

/-- The greatest sign below two distinct ones that are neither bottom nor top. -/
def meetProper : Sign → Sign → Sign
  | zeroPlus, zeroMinus => zero
  | zeroMinus, zeroPlus => zero
  | zero, zeroPlus | zeroPlus, zero => zero
  | plus, zeroPlus | zeroPlus, plus => plus
  | zero, zeroMinus | zeroMinus, zero => zero
  | minus, zeroMinus | zeroMinus, minus => minus
  | _, _ => bottom

/-- The order between two distinct signs that are neither bottom nor top. -/
def leqProper : Sign → Sign → Bool
  | zero, zeroPlus => true
  | plus, zeroPlus => true
  | zero, zeroMinus => true
  | minus, zeroMinus => true
  | _, _ => false

instance : AbstractLattice Sign where
  top := top
  bottom := bottom
  joinProper s t := .ok (joinProper s t)
  meetProper s t := .ok (meetProper s t)
  leqProper s t := .ok (leqProper s t)

/-! ## Values -/

/-- The sign of the result of an operator on one operand. -/
def evalUnary : UnaryOp → Sign → Sign
  | .numericNeg, s => s.negate
  | _, _ => top

/-- The sign of the result of an operator on two operands. -/
def evalBinary : BinaryOp → Sign → Sign → Sign
  | .numericAdd, s, t => s.add t
  | .numericSub, s, t => s.sub t
  | .numericMul, s, t => s.mul t
  | .numericDiv, s, t => s.div t
  | .numericMod, s, t => s.rem t
  | _, _, _ => top

/-- The answer for a comparison that holds if `yes` and does not hold if `no`. -/
def answer (yes no : Bool) : Satisfiability :=
  if yes then .satisfied else if no then .notSatisfied else .unknown

/-- Whether a comparison of numbers of these signs holds. -/
def satisfiesBinary : BinaryOp → Sign → Sign → Analysis Satisfiability
  | .comparisonEq, zero, zero => .ok .satisfied
  | .comparisonEq, s, t => unequalIfIncomparable s t
  | .comparisonLt, s, t => .ok (answer (s.strictlyBelow t) (t.weaklyBelow s))
  | .comparisonLe, s, t => .ok (answer (s.weaklyBelow t) (t.strictlyBelow s))
  | .comparisonGt, s, t => .ok (answer (t.strictlyBelow s) (s.weaklyBelow t))
  | .comparisonGe, s, t => .ok (answer (t.weaklyBelow s) (s.strictlyBelow t))
  | _, _, _ => .ok .unknown

/-- The sign of a constant; only numbers have one. -/
def ofConstant : Constant → Sign
  | .int n => ofInt n.toInt
  | _ => top

instance : ValueDomain Sign where
  evalNonNull value _ := .ok (ofConstant value)
  evalUnary op s _ := .ok (evalUnary op s)
  evalBinary op s t _ := .ok (evalBinary op s t)
  satisfiesBinary op s t _ := satisfiesBinary op s t

end Sign

end AbstractDomains
