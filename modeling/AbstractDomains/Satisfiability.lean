import AbstractDomains.Keyword

/-!
# Satisfiability

The three answers to whether a condition holds in every execution an abstraction describes, with
the connectives of three-valued logic.
-/

namespace AbstractDomains

/-- Whether a condition holds: always, never, or it cannot be told. -/
inductive Satisfiability where
  | satisfied
  | notSatisfied
  | unknown
deriving DecidableEq

namespace Satisfiability

/-- The name an answer is encoded with. -/
def name : Satisfiability → String
  | satisfied => "satisfied"
  | notSatisfied => "not-satisfied"
  | unknown => "unknown"

instance : Keyword Satisfiability where
  all := [satisfied, notSatisfied, unknown]
  word := name
  find?_word := by intro a; cases a <;> rfl

/-- The answer in words. -/
protected def toString : Satisfiability → String
  | satisfied => "satisfied"
  | notSatisfied => "not satisfied"
  | unknown => "unknown"

instance : ToString Satisfiability := ⟨Satisfiability.toString⟩

/-- A condition that is known to be true or to be false. -/
def ofBool : Bool → Satisfiability
  | true => satisfied
  | false => notSatisfied

/-- The answer for the negated condition. -/
def negate : Satisfiability → Satisfiability
  | satisfied => notSatisfied
  | notSatisfied => satisfied
  | unknown => unknown

/-- The answer for a conjunction. -/
protected def and : Satisfiability → Satisfiability → Satisfiability
  | notSatisfied, _ => notSatisfied
  | _, notSatisfied => notSatisfied
  | satisfied, satisfied => satisfied
  | _, _ => unknown

/-- The answer for a disjunction. -/
protected def or : Satisfiability → Satisfiability → Satisfiability
  | satisfied, _ => satisfied
  | _, satisfied => satisfied
  | notSatisfied, notSatisfied => notSatisfied
  | _, _ => unknown

/-- The answer over the union of the executions two answers were found for. -/
def join (a b : Satisfiability) : Satisfiability :=
  if a = b then a else unknown

/-- Of two answers about the same executions, the first definite one. -/
def orElse : Satisfiability → Satisfiability → Satisfiability
  | unknown, b => b
  | a, _ => a

end Satisfiability

end AbstractDomains
