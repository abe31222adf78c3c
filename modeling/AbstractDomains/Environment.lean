import AbstractDomains.Evaluation
import AbstractDomains.Pointwise

/-!
# Environments

An environment describes the stores of a program: what is known of the value of each variable, or
that no execution gets here. Expressions are evaluated in it, variables are assigned and forgotten,
and conditions that are known to hold restrict it.
-/

namespace AbstractDomains

/-- What is known of the variables of a program. -/
abbrev Environment (α : Type) :=
  Pointwise Identifier α

/-- The variable, as an identifier and as an operand, and the other operand of an equality. -/
def Expr.equatedVariable? : Expr → Option (Identifier × Expr × Expr)
  | binary .comparisonEq (.var id types) other _ => some (id, .var id types, other)
  | binary .comparisonEq other (.var id types) _ => some (id, .var id types, other)
  | _ => none

namespace Environment

variable {α : Type} [DecidableEq α] [ValueDomain α]

/-- The value of an expression; nothing if no execution gets here. -/
def eval (env : Environment α) (e : Expr) (point : ProgramPoint) : Analysis α :=
  match env with
  | .bottom => .ok bottom
  | .entries m => AbstractDomains.eval m.get? point e

/-- Whether a condition holds; it does not if no execution gets here. -/
def satisfies (env : Environment α) (e : Expr) (point : ProgramPoint) : Analysis Satisfiability :=
  match env with
  | .bottom => .ok .notSatisfied
  | .entries m => AbstractDomains.satisfies m.get? point e

/-- After a variable is given the value of an expression. -/
def assign (env : Environment α) (id : Identifier) (e : Expr) (point : ProgramPoint) :
    Analysis (Environment α) := do
  let value ← env.eval e point
  return env.set id value

/--
The part of the environment where a condition holds. An equality with a variable on one side also
restricts that variable to the value of the other side.
-/
def assume (env : Environment α) (e : Expr) (point : ProgramPoint) : Analysis (Environment α) := do
  if (← env.satisfies e point) = .notSatisfied then return .bottom
  match e.equatedVariable? with
  | none => return env
  | some (id, operand, other) =>
    let v ← env.eval operand point
    let w ← env.eval other point
    let value ← meet v w
    return env.set id value

end Environment

end AbstractDomains
