import AbstractDomains.CommandLine.Report
import AbstractDomains.Trace.Environment

/-!
# Observation of a run

What the program tells of a run besides its report when it is asked to: the events of the run, and
how often evaluations and decisions began.
-/

namespace AbstractDomains.CommandLine.Observation

section

variable (α : Type) [DecidableEq α] [ValueDomain α]

/-- The events of evaluating an expression and, if it is a condition, of deciding it. -/
def ofExpr (e : Expr) (point : ProgramPoint) : List Event :=
  let env : Environment α := .top
  Trace.Environment.eval env e point ++
    if e.types.contains .boolean then Trace.Environment.satisfies env e point else []

/-- The events of evaluating expressions, the first of which has the given number. -/
def evaluate (index : Nat) : List Expr → List Event
  | [] => []
  | e :: rest => ofExpr α e (Report.inputPoint index) ++ evaluate (index + 1) rest

end

/-- The events of evaluating expressions in the chosen domain. -/
def ofExprs (domain : DomainName) (exprs : List Expr) : List Event :=
  match domain with
  | .sign => evaluate Sign 0 exprs
  | .parity => evaluate Parity 0 exprs
  | .signParity => evaluate SignParity 0 exprs

/-- A line for each event of a command, and one for each count. -/
def lines (command : Except UsageError Command) (content : Option String) : List String :=
  match command with
  | .ok (.evaluate options) =>
    if options.tracing then
      let events := ofExprs options.domain ((content.bind Expr.parseList?).getD [])
      events.map Event.line ++ Trace.report events
    else []
  | _ => []

end AbstractDomains.CommandLine.Observation
