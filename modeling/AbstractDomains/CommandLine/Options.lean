import AbstractDomains.Keyword

/-!
# Options of the command line

`Options.parse` reads the arguments of the program from left to right. The first thing that settles
the outcome wins: an argument that is in error, or a request for the version or for help.
-/

namespace AbstractDomains.CommandLine

/-- The domains a user can choose. -/
inductive DomainName where
  | sign
  | parity
  | signParity
deriving DecidableEq

/-- How a domain is named on the command line. -/
def DomainName.name : DomainName → String
  | sign => "sign"
  | parity => "parity"
  | signParity => "sign-parity"

instance : Keyword DomainName where
  all := [.sign, .parity, .signParity]
  word := DomainName.name
  find?_word := by intro a; cases a <;> rfl

/-- What to evaluate, and how. -/
structure Options where
  domain : DomainName
  /-- Print no results. -/
  quiet : Bool
  /-- Observe the evaluation. -/
  tracing : Bool
  /-- The file with the expressions. -/
  path : String
deriving DecidableEq

/-- What the user asks for. -/
inductive Command where
  | evaluate (options : Options)
  | version
  | help
deriving DecidableEq

/-- What is wrong with the arguments. -/
inductive UsageError where
  | unknownOption (arg : String)
  | missingValue (option : String)
  | unexpectedValue (option value : String)
  | unknownDomain (value : String)
  | repeatedOption (option : String)
  | emptyPath
  | unexpectedPath (path : String)
  | missingPath
deriving DecidableEq

/-- The error in words. -/
def UsageError.message : UsageError → String
  | unknownOption arg => s!"unexpected argument {arg}"
  | missingValue option => s!"a value is required for {option}"
  | unexpectedValue option value => s!"unexpected value {value} for {option}"
  | unknownDomain value => s!"invalid domain {value}: sign, parity and sign-parity are possible"
  | repeatedOption option => s!"{option} cannot be used multiple times"
  | emptyPath => "the path of the input is empty"
  | unexpectedPath path => s!"unexpected argument {path}"
  | missingPath => "the path of the input is missing"

/-! ## Arguments -/

/-- One argument by its form. -/
inductive Argument where
  | path (path : String)
  /-- Two dashes, a name, and perhaps an equals sign and a value. -/
  | long (name : String) (value : Option String)
  /-- One dash, a letter, and whatever follows it. -/
  | short (letter : Char) (rest : List Char)

/-- The form of an argument; a lone dash is a path. -/
def Argument.ofString (arg : String) : Argument :=
  match arg.toList with
  | '-' :: '-' :: chars =>
    let name := String.ofList (chars.takeWhile (· != '='))
    match chars.dropWhile (· != '=') with
    | [] => long name none
    | _ :: value => long name (some (String.ofList value))
  | '-' :: letter :: rest => short letter rest
  | _ => path arg

/-- Whether an argument can be the value of the option before it. -/
def isValue (arg : String) : Bool :=
  match Argument.ofString arg with
  | .path _ => true
  | _ => false

/-! ## Parsing -/

/-- The options read so far. -/
structure Draft where
  domain : Option DomainName
  quiet : Bool
  tracing : Bool
  path : Option String

namespace Draft

/-- Before the first argument. -/
def empty : Draft :=
  ⟨none, false, false, none⟩

/-- With the domain chosen. -/
def setDomain (draft : Draft) (value : String) : Except UsageError Draft :=
  match draft.domain, Keyword.ofWord? value with
  | some _, _ => .error (.repeatedOption "--domain")
  | none, some domain => .ok { draft with domain := some domain }
  | none, none => .error (.unknownDomain value)

/-- With the path of the input given. -/
def setPath (draft : Draft) (path : String) : Except UsageError Draft :=
  match draft.path with
  | some _ => .error (.unexpectedPath path)
  | none => if path = "" then .error .emptyPath else .ok { draft with path := some path }

/-- With printing turned off. -/
def setQuiet (draft : Draft) : Except UsageError Draft :=
  if draft.quiet then .error (.repeatedOption "--quiet") else .ok { draft with quiet := true }

/-- With observation turned on. -/
def setTracing (draft : Draft) : Except UsageError Draft :=
  if draft.tracing then .error (.repeatedOption "--tracing") else .ok { draft with tracing := true }

/-- The command after the last argument. -/
def finish (draft : Draft) : Except UsageError Command :=
  match draft.path with
  | some path =>
    .ok (.evaluate ⟨draft.domain.getD .signParity, draft.quiet, draft.tracing, path⟩)
  | none => .error .missingPath

/-- Reads the arguments that are left. -/
def parse (draft : Draft) : List String → Except UsageError Command
  | [] => draft.finish
  | "--" :: rest => do
    let draft ← rest.foldlM setPath draft
    draft.finish
  | arg :: rest => match Argument.ofString arg, rest with
    | .path path, rest => do parse (← draft.setPath path) rest
    | .long "domain" (some value), rest => do parse (← draft.setDomain value) rest
    | .short 'd' ('=' :: value), rest => do
      parse (← draft.setDomain (String.ofList value)) rest
    | .short 'd' (c :: value), rest => do
      parse (← draft.setDomain (String.ofList (c :: value))) rest
    | .long "domain" none, value :: rest | .short 'd' [], value :: rest =>
      if isValue value then do parse (← draft.setDomain value) rest
      else .error (.missingValue "--domain")
    | .long "domain" none, [] => .error (.missingValue "--domain")
    | .short 'd' [], [] => .error (.missingValue "--domain")
    | .long "quiet" none, rest => do parse (← draft.setQuiet) rest
    | .long "tracing" none, rest => do parse (← draft.setTracing) rest
    | .long "version" none, _ => .ok .version
    | .long "help" none, _ => .ok .help
    | .short 'V' _, _ => .ok .version
    | .short 'h' _, _ => .ok .help
    | .long name (some value), _ =>
      if ["quiet", "tracing", "version", "help"].contains name then
        .error (.unexpectedValue ("--" ++ name) value)
      else .error (.unknownOption arg)
    | .long _ none, _ => .error (.unknownOption arg)
    | .short _ _, _ => .error (.unknownOption arg)

end Draft

/-- The command that the arguments of the program ask for. -/
def Options.parse (args : List String) : Except UsageError Command :=
  Draft.empty.parse args

end AbstractDomains.CommandLine
