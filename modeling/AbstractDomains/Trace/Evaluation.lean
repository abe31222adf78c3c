import AbstractDomains.Evaluation
import AbstractDomains.Trace.Event

/-!
# Events of an evaluation

`Trace.eval` and `Trace.satisfies` list the events of evaluating an expression and of deciding a
condition, in the order of the evaluation: operands from left to right, up to the first that settles
the outcome.
-/

namespace AbstractDomains.Trace

variable {α : Type} [DecidableEq α] [ValueDomain α]

/-- Events that only happen if the step before them succeeds. -/
def after {β : Type} (step : Analysis β) (events : List Event) : List Event :=
  match step with
  | .ok _ => events
  | .error _ => []

/-- Events that only happen if the value before them is there and not bottom. -/
def afterValue (step : Analysis α) (events : List Event) : List Event :=
  match step with
  | .ok value => if isBottom value then [] else events
  | .error _ => []

/-- The events of the operands of an expression and its own. -/
def eval (lookup : Identifier → Option α) (point : ProgramPoint) : Expr → List Event
  | .unary op arg types =>
    if op.accepts arg.types then eval lookup point arg else [.illTyped (.unary op arg types)]
  | .binary op left right types =>
    if op.accepts left.types right.types then
      eval lookup point left ++
        afterValue (AbstractDomains.eval lookup point left) (eval lookup point right)
    else [.illTyped (.binary op left right types)]
  | .ternary op left middle right types =>
    if op.accepts left.types middle.types right.types then
      eval lookup point left ++ afterValue (AbstractDomains.eval lookup point left)
        (eval lookup point middle ++ afterValue (AbstractDomains.eval lookup point middle)
          (eval lookup point right))
    else [.illTyped (.ternary op left middle right types)]
  | _ => []

/-- The events of deciding a condition. -/
def satisfies (lookup : Identifier → Option α) (point : ProgramPoint) : Expr → List Event
  | .unary .logicalNot arg _ => satisfies lookup point arg
  | .binary .logicalAnd left right _ =>
    satisfies lookup point left ++
      after (AbstractDomains.satisfies lookup point left) (satisfies lookup point right)
  | .binary .logicalOr left right _ =>
    satisfies lookup point left ++
      after (AbstractDomains.satisfies lookup point left) (satisfies lookup point right)
  | .unary op arg _ => if op.accepts arg.types then eval lookup point arg else []
  | .binary op left right _ =>
    if op.accepts left.types right.types then
      eval lookup point left ++
        after (AbstractDomains.eval lookup point left) (eval lookup point right)
    else []
  | .ternary op left middle right _ =>
    if op.accepts left.types middle.types right.types then
      eval lookup point left ++ after (AbstractDomains.eval lookup point left)
        (eval lookup point middle ++ after (AbstractDomains.eval lookup point middle)
          (eval lookup point right))
    else []
  | _ => []

end AbstractDomains.Trace
