import AbstractDomains.Expr.Basic
import AbstractDomains.Json.Printer
import AbstractDomains.Json.Reader
import AbstractDomains.Json.Record

/-!
# Expressions as JSON

An expression is a record of its kind and its candidate types; the types may be left out. The kind
is a variant: `push-any`, `skip`, `constant`, `variable`, `unary`, `binary` or `ternary`, the last
three with a record of the operator and the operands.

`Expr.toJson` encodes and `Expr.ofJson?` decodes. Decoding takes the number of arrays and objects
that may be open at once. `Expr.decode` sets no limit, `Expr.parse?` reads a text within
`nestingLimit`. Whatever a reader skips does not count.
-/

namespace AbstractDomains

/-! ## Writing -/

namespace TypeSet

/-- The names of the members in order. -/
def toJson (s : TypeSet) : Json :=
  .array (s.toList.map Json.ofKeyword)

end TypeSet

namespace Constant

/-- A variant named for the kind of constant. -/
def toJson : Constant → Json
  | int value => .ofMembers [("int", .ofInt value.toInt)]
  | bool value => .ofMembers [("bool", .bool value)]
  | str value => .ofMembers [("str", .ofString value)]
  | null => .ofString "null"

end Constant

namespace Expr

/-- A record of the kind and the candidate types. -/
def node (types : TypeSet) (kind : Json) : Json :=
  .ofMembers [("kind", kind), ("types", types.toJson)]

/-- The record of an expression; its kind is a variant named for the kind of expression. -/
def toJson : Expr → Json
  | constant value types => node types (.ofMembers [("constant", value.toJson)])
  | .var id types => node types (.ofMembers [("variable", .ofString id)])
  | unary op arg types => node types (.ofMembers [("unary", .ofMembers [
      ("op", .ofKeyword op), ("arg", arg.toJson)])])
  | binary op left right types => node types (.ofMembers [("binary", .ofMembers [
      ("op", .ofKeyword op), ("left", left.toJson), ("right", right.toJson)])])
  | ternary op left middle right types => node types (.ofMembers [("ternary", .ofMembers [
      ("op", .ofKeyword op), ("left", left.toJson), ("middle", middle.toJson),
      ("right", right.toJson)])])
  | pushAny types => node types (.ofString "push-any")
  | skip types => node types (.ofString "skip")

/-- The encoding as compact text. -/
def render (e : Expr) : String :=
  e.toJson.render

end Expr

/-! ## Reading -/

namespace TypeSet

/-- An array of type names. -/
def ofJson? : Nat → Json → Option TypeSet
  | limit + 1, .array items => (items.mapM (Json.keyword? limit)).map ofList
  | _, _ => none

/-- As `ofJson?`; the empty set if there is no document. -/
def ofField? (limit : Nat) : Option Json → Option TypeSet
  | none => some empty
  | some document => ofJson? limit document

end TypeSet

namespace Constant

/-- A variant named for the kind of constant. -/
def ofJson? (limit : Nat) (document : Json) : Option Constant :=
  match document.unit? limit, limit, document.variant? with
  | some name, _, _ => if name = "null" then some null else none
  | none, _ + 1, some ("int", content) => content.int64?.map int
  | none, _ + 1, some ("bool", content) => content.bool?.map bool
  | none, _ + 1, some ("str", content) => content.text?.map str
  | _, _, _ => none

end Constant

namespace Expr

mutual

/-- Reads an expression within `limit` levels of nesting. -/
def ofJson? : Nat → Json → Option Expr
  | 0, _ => none
  | limit + 1, document =>
    match document.record? ["kind", "types"] with
    | some [some kind, types] => (TypeSet.ofField? limit types).bind (ofKind? limit kind)
    | _ => none

/-- Reads the kind of an expression, whose candidate types are given. -/
def ofKind? : Nat → Json → TypeSet → Option Expr
  | limit, document, types =>
    match document.unit? limit with
    | some "push-any" => some (pushAny types)
    | some "skip" => some (skip types)
    | some _ => none
    | none => match limit, document.variant? with
      | limit + 1, some (name, content) => match name with
        | "constant" => (Constant.ofJson? limit content).map (constant · types)
        | "variable" => content.text?.map (.var · types)
        | _ => ofOperation? limit name content types
      | _, _ => none

/-- Reads an operator with its operands; `arity` is `unary`, `binary` or `ternary`. -/
def ofOperation? : Nat → String → Json → TypeSet → Option Expr
  | 0, _, _, _ => none
  | limit + 1, arity, document, types => match arity with
    | "unary" => match document.record? ["op", "arg"] with
      | some [some op, some arg] => do
        return unary (← Json.keyword? limit op) (← ofJson? limit arg) types
      | _ => none
    | "binary" => match document.record? ["op", "left", "right"] with
      | some [some op, some left, some right] => do
        return binary (← Json.keyword? limit op) (← ofJson? limit left) (← ofJson? limit right) types
      | _ => none
    | "ternary" => match document.record? ["op", "left", "middle", "right"] with
      | some [some op, some left, some middle, some right] => do
        return ternary (← Json.keyword? limit op) (← ofJson? limit left) (← ofJson? limit middle)
          (← ofJson? limit right) types
      | _ => none
    | _ => none

end

/-- The expression that a document encodes, however deep it nests. -/
def decode (document : Json) : Option Expr :=
  ofJson? document.depth document

/-- How many arrays and objects may be open at once in a text. -/
def nestingLimit : Nat :=
  127

/-- The expression that a text encodes. -/
def parse? (text : String) : Option Expr :=
  (Json.parse? text).bind (ofJson? nestingLimit)

/-- Reads an array of expressions within `limit` levels of nesting. -/
def listOfJson? : Nat → Json → Option (List Expr)
  | limit + 1, .array items => items.mapM (ofJson? limit)
  | _, _ => none

/-- The expressions that a text encodes as an array. -/
def parseList? (text : String) : Option (List Expr) :=
  (Json.parse? text).bind (listOfJson? nestingLimit)

end Expr

end AbstractDomains
