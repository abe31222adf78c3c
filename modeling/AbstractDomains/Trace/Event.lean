import AbstractDomains.Heap.Site

/-!
# Events

What can be observed of an analysis besides its results: evaluations and decisions that begin,
operands that do not fit, assignments, refuted assumptions, heap writes, and what happens to
allocation sites. `Trace.spans` counts the evaluations and decisions of a trace.
-/

namespace AbstractDomains

/-- Something that happens in the course of an analysis. -/
inductive Event where
  /-- The evaluation of an expression begins. -/
  | evaluating (point : ProgramPoint)
  /-- The decision of a condition begins. -/
  | deciding (point : ProgramPoint)
  /-- An operand of the expression does not fit its operator. -/
  | illTyped (e : Expr)
  | assigned (id : Identifier) (e : Expr)
  /-- A condition that was assumed cannot hold. -/
  | refuted (e : Expr) (point : ProgramPoint)
  | written (site : AllocationSite)
  /-- A location is seen for the first time. -/
  | allocated (location : Location)
  /-- A location turns from strong to weak. -/
  | promoted (key : SiteKey)
deriving DecidableEq

namespace Event

/-- The name of the activity that begins, if one does. -/
def span? : Event → Option String
  | evaluating _ => some "eval"
  | deciding _ => some "satisfies"
  | _ => none

/-- The event as a line of a log. -/
def line : Event → String
  | evaluating point => s!"span eval pp={point}"
  | deciding point => s!"span satisfies pp={point}"
  | illTyped e => s!"TRACE ill-typed operand expr={e}"
  | assigned id e => s!"TRACE assign id={id} expr={e}"
  | refuted e point => s!"TRACE assumption cannot hold expr={e} pp={point}"
  | written site => s!"TRACE heap write site={site}"
  | allocated location => s!"DEBUG new allocation site location={location}"
  | promoted key => s!"DEBUG promoted to weak site={key}"

end Event

namespace Trace

/-- The activities of a trace with how often each began, in order of their names. -/
def spans (events : List Event) : List (String × Nat) :=
  let names := events.filterMap Event.span?
  (["eval", "satisfies"].map fun name => (name, names.count name)).filter (·.2 != 0)

/-- A line for each activity, with its count. -/
def report (events : List Event) : List String :=
  (spans events).map fun (name, count) => s!"{name}: {count}"

end Trace

end AbstractDomains
