import AbstractDomains.CommandLine.Options
import AbstractDomains.Environment
import AbstractDomains.Expr.Encoding
import AbstractDomains.Numeric.SignParity

/-!
# Reports of the command line

What the program answers: `Report.ofCommand` evaluates the expressions of the input one by one in
an environment that knows nothing, and writes a line for each. A run that succeeds has code 0, one
that fails has code 1, and one whose arguments are in error has code 2.
-/

namespace AbstractDomains.CommandLine

/-- The outcome of a run: its exit code, the lines it prints, and its complaint if there is one. -/
structure Report where
  code : Nat
  lines : List String
  error : Option String
deriving DecidableEq

namespace Report

/-- A run that ends well. -/
def success (lines : List String) : Report :=
  ⟨0, lines, none⟩

/-- A run that fails after printing some lines. -/
def failure (lines : List String) (error : String) : Report :=
  ⟨1, lines, some ("Error: " ++ error)⟩

/-- The program point of the expression with that number. -/
def inputPoint (index : Nat) : ProgramPoint :=
  ⟨s!"input:{index}"⟩

section

variable (α : Type) [DecidableEq α] [ValueDomain α] [ToString α]

/-- The line of an expression: its value, and for a condition whether it holds. -/
def line (e : Expr) (point : ProgramPoint) : Except String String := do
  let env : Environment α := .top
  let value ← (env.eval e point).mapError fun _ => s!"Couldn't evaluate {e}"
  if e.types.contains .boolean then
    let answer ← (env.satisfies e point).mapError fun _ => s!"Couldn't check {e}"
    return s!"{e} --> {value} [{answer}]"
  else return s!"{e} --> {value}"

/-- The lines of the expressions, the first of which has the given number. -/
def evaluate (index : Nat) : List Expr → Report
  | [] => success []
  | e :: rest => match line α e (inputPoint index) with
    | .error error => failure [] error
    | .ok text =>
      let report := evaluate (index + 1) rest
      { report with lines := text :: report.lines }

end

/-- The report on expressions in the chosen domain. -/
def ofExprs (domain : DomainName) (exprs : List Expr) : Report :=
  match domain with
  | .sign => evaluate Sign 0 exprs
  | .parity => evaluate Parity 0 exprs
  | .signParity => evaluate SignParity 0 exprs

/-- The report on the content of the input file, if it can be read. -/
def ofInput (options : Options) (content : Option String) : Report :=
  match content with
  | none => failure [] s!"Couldn't read {options.path}"
  | some text => match Expr.parseList? text with
    | none => failure [] "Couldn't deserialize symbolic expressions"
    | some exprs =>
      let report := ofExprs options.domain exprs
      if options.quiet then { report with lines := [] } else report

/-- The name and the version of the program. -/
def versionLine : String :=
  "absint 0.1.0"

/-- How to use the program. -/
def helpLines : List String :=
  ["Evaluate symbolic expressions in an abstract domain",
   "",
   "Usage: absint [OPTIONS] <INPUT>",
   "",
   "Arguments:",
   "  <INPUT>  JSON array of symbolic expressions",
   "",
   "Options:",
   "  -d, --domain <DOMAIN>  Abstract domain: sign, parity or sign-parity (the default)",
   "      --quiet            Print no results",
   "      --tracing          Observe the evaluation",
   "  -h, --help             Print help",
   "  -V, --version          Print version"]

/-- The report on a command, given the content of its input file if that can be read. -/
def ofCommand (command : Except UsageError Command) (content : Option String) : Report :=
  match command with
  | .error error => ⟨2, [], some ("error: " ++ error.message)⟩
  | .ok .version => success [versionLine]
  | .ok .help => success helpLines
  | .ok (.evaluate options) => ofInput options content

end Report

end AbstractDomains.CommandLine
