import AbstractDomains.Expr.Typing
import AbstractDomains.ValueDomain

/-!
# Evaluation of expressions

`eval` finds the abstract value of an expression and `satisfies` decides a condition, in any value
domain. Two rules hold in every domain: an operation on bottom is bottom, and so is an operation on
an operand that does not fit its operator, since both are undefined. A condition whose root is
undefined cannot hold.
-/

namespace AbstractDomains

open ValueDomain

variable {α : Type} [DecidableEq α] [ValueDomain α]

/-- The value of a variable: the one it is bound to, or else the one of an unbound variable. -/
def valueOf (lookup : Identifier → Option α) (point : ProgramPoint) (id : Identifier) :
    Analysis α :=
  match lookup id with
  | some value => .ok value
  | none => evalVariable id point

/-- The value of an expression; the first operand that is bottom is the value of an operation. -/
def eval (lookup : Identifier → Option α) (point : ProgramPoint) : Expr → Analysis α
  | .constant value _ => evalConstant value point
  | .var id _ => valueOf lookup point id
  | .pushAny types => evalPushAny types point
  | .skip _ => evalSkip point
  | .unary op arg _ =>
    if op.accepts arg.types then do
      let a ← eval lookup point arg
      if isBottom a then return a
      evalUnary op a point
    else .ok bottom
  | .binary op left right _ =>
    if op.accepts left.types right.types then do
      let l ← eval lookup point left
      if isBottom l then return l
      let r ← eval lookup point right
      if isBottom r then return r
      evalBinary op l r point
    else .ok bottom
  | .ternary op left middle right _ =>
    if op.accepts left.types middle.types right.types then do
      let l ← eval lookup point left
      if isBottom l then return l
      let m ← eval lookup point middle
      if isBottom m then return m
      let r ← eval lookup point right
      if isBottom r then return r
      evalTernary op l m r point
    else .ok bottom

/--
Whether a condition holds. Negation, conjunction and disjunction are decided on the answers for
their operands, every other operator on the values of its operands.
-/
def satisfies (lookup : Identifier → Option α) (point : ProgramPoint) :
    Expr → Analysis Satisfiability
  | .constant (.bool value) _ => .ok (.ofBool value)
  | .constant _ _ => .ok .unknown
  | .pushAny _ => .ok .unknown
  | .skip _ => .ok .unknown
  | .var id _ => do
    satisfiesValue (← valueOf lookup point id) point
  | .unary .logicalNot arg _ => do
    return (← satisfies lookup point arg).negate
  | .binary .logicalAnd left right _ => do
    return (← satisfies lookup point left).and (← satisfies lookup point right)
  | .binary .logicalOr left right _ => do
    return (← satisfies lookup point left).or (← satisfies lookup point right)
  | .unary op arg _ =>
    if op.accepts arg.types then do
      let a ← eval lookup point arg
      if isBottom a then return .notSatisfied
      satisfiesUnary op a point
    else .ok .notSatisfied
  | .binary op left right _ =>
    if op.accepts left.types right.types then do
      let l ← eval lookup point left
      let r ← eval lookup point right
      if isBottom l || isBottom r then return .notSatisfied
      satisfiesBinary op l r point
    else .ok .notSatisfied
  | .ternary op left middle right _ =>
    if op.accepts left.types middle.types right.types then do
      let l ← eval lookup point left
      let m ← eval lookup point middle
      let r ← eval lookup point right
      if isBottom l || isBottom m || isBottom r then return .notSatisfied
      satisfiesTernary op l m r point
    else .ok .notSatisfied

end AbstractDomains
