import AbstractDomains.Expr.Operator
import AbstractDomains.Expr.TypeSet
import AbstractDomains.Text.Quoted

/-!
# Symbolic expressions

`Expr` is an expression tree whose every node carries its candidate runtime types. `Expr.types` and
`Expr.withTypes` read and replace the types of the root; `Expr.toString` displays a tree.
-/

namespace AbstractDomains

/-- Where an expression is evaluated; domains only carry it along. -/
structure ProgramPoint where
  label : String
deriving DecidableEq

namespace ProgramPoint

/-- The label, or a placeholder if it is empty. -/
protected def toString (point : ProgramPoint) : String :=
  if point.label = "" then "<unknown>" else point.label

instance : ToString ProgramPoint := ⟨ProgramPoint.toString⟩

end ProgramPoint

/-- The name of a program variable. -/
abbrev Identifier := String

/-- A constant of the analysed program. -/
inductive Constant where
  | int (value : Int64)
  | bool (value : Bool)
  | str (value : String)
  | null
deriving DecidableEq

namespace Constant

/-- The runtime type of the constant. -/
def runtimeType : Constant → RuntimeType
  | int _ => .numeric
  | bool _ => .boolean
  | str _ => .string
  | null => .null

/-- The constant as a literal; strings are quoted. -/
protected def toString : Constant → String
  | int value => toString value.toInt
  | bool value => if value then "true" else "false"
  | str value => Text.quote value
  | null => "null"

instance : ToString Constant := ⟨Constant.toString⟩

end Constant

/-- An expression; the last field of each node is its candidate runtime types. -/
inductive Expr where
  | constant (value : Constant) (types : TypeSet)
  | var (id : Identifier) (types : TypeSet)
  | unary (op : UnaryOp) (arg : Expr) (types : TypeSet)
  | binary (op : BinaryOp) (left right : Expr) (types : TypeSet)
  | ternary (op : TernaryOp) (left middle right : Expr) (types : TypeSet)
  /-- Any value of the node's types. -/
  | pushAny (types : TypeSet)
  /-- Does nothing and has no value. -/
  | skip (types : TypeSet)
deriving DecidableEq

namespace Expr

/-- The candidate types of the root. -/
def types : Expr → TypeSet
  | constant _ types => types
  | .var _ types => types
  | unary _ _ types => types
  | binary _ _ _ types => types
  | ternary _ _ _ _ types => types
  | pushAny types => types
  | skip types => types

/-- The same expression with other candidate types at the root. -/
def withTypes : Expr → TypeSet → Expr
  | constant value _, types => constant value types
  | .var id _, types => .var id types
  | unary op arg _, types => unary op arg types
  | binary op left right _, types => binary op left right types
  | ternary op left middle right _, types => ternary op left middle right types
  | pushAny _, types => pushAny types
  | skip _, types => skip types

@[simp]
theorem types_withTypes (e : Expr) (types : TypeSet) : (e.withTypes types).types = types := by
  cases e <;> rfl

/-- A constant with its own runtime type. -/
def ofConstant (value : Constant) : Expr :=
  constant value (.single value.runtimeType)

/-- The expression that has no value. -/
def nothing : Expr :=
  skip (.single .void)

/-- The expression in infix form, fully parenthesised. -/
protected def toString : Expr → String
  | constant value _ => toString value
  | .var id _ => id
  | unary op arg _ => op.symbol ++ arg.toString
  | binary op left right _ => s!"({left.toString} {op.symbol} {right.toString})"
  | ternary op left middle right _ =>
    s!"{op.symbol}({left.toString}, {middle.toString}, {right.toString})"
  | pushAny types => "?" ++ types.toString
  | skip _ => "skip"

instance : ToString Expr := ⟨Expr.toString⟩

end Expr

end AbstractDomains
