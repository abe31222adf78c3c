import AbstractDomains.Lattice
import AbstractDomains.Satisfiability

/-!
# Value domains

A value domain is a lattice with an abstract meaning for constants, variables and operators, and
with answers to whether a condition holds. Whatever a domain leaves out it does not track: values
are top and answers are unknown.
-/

namespace AbstractDomains

variable {α : Type} [DecidableEq α]

/-- Two values neither of which is below the other cannot be equal. -/
def unequalIfIncomparable [AbstractLattice α] (left right : α) : Analysis Satisfiability := do
  if ← leq left right then return .unknown
  if ← leq right left then return .unknown
  return .notSatisfied

/-- Abstract values with the meaning of constants, variables, operators and conditions. -/
class ValueDomain (α : Type) [DecidableEq α] extends AbstractLattice α where
  evalNull : ProgramPoint → Analysis α := fun _ => .ok top
  /-- The value of a constant other than null. -/
  evalNonNull : Constant → ProgramPoint → Analysis α := fun _ _ => .ok top
  /-- The value of a variable that is not bound. -/
  evalVariable : Identifier → ProgramPoint → Analysis α := fun _ _ => .ok top
  evalPushAny : TypeSet → ProgramPoint → Analysis α := fun _ _ => .ok top
  evalSkip : ProgramPoint → Analysis α := fun _ => .ok bottom
  evalUnary : UnaryOp → α → ProgramPoint → Analysis α := fun _ _ _ => .ok top
  evalBinary : BinaryOp → α → α → ProgramPoint → Analysis α := fun _ _ _ _ => .ok top
  evalTernary : TernaryOp → α → α → α → ProgramPoint → Analysis α := fun _ _ _ _ _ => .ok top
  /-- Whether a value is the truth value true. -/
  satisfiesValue : α → ProgramPoint → Analysis Satisfiability := fun _ _ => .ok .unknown
  satisfiesUnary : UnaryOp → α → ProgramPoint → Analysis Satisfiability :=
    fun _ _ _ => .ok .unknown
  /-- Without further knowledge an equality can only be refuted. -/
  satisfiesBinary : BinaryOp → α → α → ProgramPoint → Analysis Satisfiability :=
    fun op left right _ => match op with
      | .comparisonEq => unequalIfIncomparable left right
      | _ => .ok .unknown
  satisfiesTernary : TernaryOp → α → α → α → ProgramPoint → Analysis Satisfiability :=
    fun _ _ _ _ _ => .ok .unknown

namespace ValueDomain

/-- The value of a constant. -/
def evalConstant [ValueDomain α] (value : Constant) (point : ProgramPoint) : Analysis α :=
  match value with
  | .null => evalNull point
  | value => evalNonNull value point

end ValueDomain

end AbstractDomains
