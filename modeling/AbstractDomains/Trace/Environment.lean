import AbstractDomains.Environment
import AbstractDomains.Trace.Evaluation

/-!
# Events of environments

The events of evaluating, deciding, assigning and assuming in an environment. Nothing is evaluated
where no execution gets to.
-/

namespace AbstractDomains.Trace.Environment

open AbstractDomains (Environment)

variable {α : Type} [DecidableEq α] [ValueDomain α]

/-- The events of evaluating an expression. -/
def eval (env : Environment α) (e : Expr) (point : ProgramPoint) : List Event :=
  match env with
  | .bottom => []
  | .entries m => .evaluating point :: Trace.eval m.get? point e

/-- The events of deciding a condition. -/
def satisfies (env : Environment α) (e : Expr) (point : ProgramPoint) : List Event :=
  match env with
  | .bottom => []
  | .entries m => .deciding point :: Trace.satisfies m.get? point e

/-- The events of assigning the value of an expression. -/
def assign (env : Environment α) (id : Identifier) (e : Expr) (point : ProgramPoint) : List Event :=
  eval env e point ++ after (env.eval e point) [.assigned id e]

/-- The events of assuming a condition. -/
def assume (env : Environment α) (e : Expr) (point : ProgramPoint) : List Event :=
  satisfies env e point ++ match env.satisfies e point with
    | .error _ => []
    | .ok .notSatisfied => [.refuted e point]
    | .ok _ => match e.equatedVariable? with
      | none => []
      | some (_, operand, other) =>
        eval env operand point ++ after (env.eval operand point) (eval env other point)

end AbstractDomains.Trace.Environment
