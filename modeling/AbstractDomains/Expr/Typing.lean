import AbstractDomains.Expr.Basic

/-!
# Typing of operands

Whether the candidate types of the operands let an operator apply to them. An operand that does not
fit makes the operation undefined.
-/

namespace AbstractDomains

/-- Whether an operand with these candidate types fits. -/
def UnaryOp.accepts (op : UnaryOp) (arg : TypeSet) : Bool :=
  arg.accepts op.operand

/-- Whether operands with these candidate types fit. -/
def BinaryOp.accepts (op : BinaryOp) (left right : TypeSet) : Bool :=
  left.accepts op.operands && right.accepts op.operands

/-- Whether operands with these candidate types fit. -/
def TernaryOp.accepts (op : TernaryOp) (left middle right : TypeSet) : Bool :=
  left.accepts op.operands.1 && middle.accepts op.operands.2 && right.accepts op.operands.2

namespace Expr

/-- Whether the operands of the root, if it has any, fit its operator. -/
def operandsFit : Expr → Bool
  | unary op arg _ => op.accepts arg.types
  | binary op left right _ => op.accepts left.types right.types
  | ternary op left middle right _ => op.accepts left.types middle.types right.types
  | _ => true

end Expr

end AbstractDomains
