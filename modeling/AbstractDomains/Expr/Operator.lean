import AbstractDomains.Expr.RuntimeType

/-!
# Operators

The unary, binary and ternary operators of expressions: how they are written, named and ordered,
and which category of operand each takes.
-/

namespace AbstractDomains

/-- Operators on one operand. -/
inductive UnaryOp where
  | numericNeg
  | logicalNot
  | stringLength
  | typeOf
deriving DecidableEq

/-- Operators on two operands. -/
inductive BinaryOp where
  | numericAdd
  | numericSub
  | numericMul
  | numericDiv
  | numericMod
  | comparisonEq
  | comparisonNe
  | comparisonLt
  | comparisonLe
  | comparisonGt
  | comparisonGe
  | logicalAnd
  | logicalOr
  | stringConcat
  | stringContains
  | stringStartsWith
  | stringEndsWith
  | stringIndexOf
deriving DecidableEq

/-- Operators on three operands. -/
inductive TernaryOp where
  | stringReplace
  | stringSubstring
deriving DecidableEq

/-! ## Unary operators -/

namespace UnaryOp

/-- The name an operator is encoded with. -/
def name : UnaryOp → String
  | numericNeg => "numeric-neg"
  | logicalNot => "logical-not"
  | stringLength => "string-length"
  | typeOf => "type-of"

instance : Keyword UnaryOp where
  all := [numericNeg, logicalNot, stringLength, typeOf]
  word := name
  find?_word := by intro a; cases a <;> rfl

instance : Ord UnaryOp := Keyword.ord
instance : Std.TransOrd UnaryOp := Keyword.transOrd
instance : Std.LawfulEqOrd UnaryOp := Keyword.lawfulEqOrd

/-- How the operator is written before its operand. -/
def symbol : UnaryOp → String
  | numericNeg => "-"
  | logicalNot => "!"
  | stringLength => "strlen "
  | typeOf => "typeof "

instance : ToString UnaryOp := ⟨symbol⟩

/-- The category the operand has to belong to. -/
def operand : UnaryOp → Category
  | numericNeg => .numeric
  | logicalNot => .boolean
  | stringLength => .string
  | typeOf => .any

end UnaryOp

/-! ## Binary operators -/

namespace BinaryOp

/-- The name an operator is encoded with. -/
def name : BinaryOp → String
  | numericAdd => "numeric-add"
  | numericSub => "numeric-sub"
  | numericMul => "numeric-mul"
  | numericDiv => "numeric-div"
  | numericMod => "numeric-mod"
  | comparisonEq => "comparison-eq"
  | comparisonNe => "comparison-ne"
  | comparisonLt => "comparison-lt"
  | comparisonLe => "comparison-le"
  | comparisonGt => "comparison-gt"
  | comparisonGe => "comparison-ge"
  | logicalAnd => "logical-and"
  | logicalOr => "logical-or"
  | stringConcat => "string-concat"
  | stringContains => "string-contains"
  | stringStartsWith => "string-starts-with"
  | stringEndsWith => "string-ends-with"
  | stringIndexOf => "string-index-of"

instance : Keyword BinaryOp where
  all := [numericAdd, numericSub, numericMul, numericDiv, numericMod, comparisonEq, comparisonNe,
    comparisonLt, comparisonLe, comparisonGt, comparisonGe, logicalAnd, logicalOr, stringConcat,
    stringContains, stringStartsWith, stringEndsWith, stringIndexOf]
  word := name
  find?_word := by intro a; cases a <;> rfl

instance : Ord BinaryOp := Keyword.ord
instance : Std.TransOrd BinaryOp := Keyword.transOrd
instance : Std.LawfulEqOrd BinaryOp := Keyword.lawfulEqOrd

/-- How the operator is written between its operands. -/
def symbol : BinaryOp → String
  | numericAdd => "+"
  | numericSub => "-"
  | numericMul => "*"
  | numericDiv => "/"
  | numericMod => "%"
  | comparisonEq => "=="
  | comparisonNe => "!="
  | comparisonLt => "<"
  | comparisonLe => "<="
  | comparisonGt => ">"
  | comparisonGe => ">="
  | logicalAnd => "&&"
  | logicalOr => "||"
  | stringConcat => "strcat"
  | stringContains => "strcontains"
  | stringStartsWith => "strstarts"
  | stringEndsWith => "strends"
  | stringIndexOf => "strindexof"

instance : ToString BinaryOp := ⟨symbol⟩

/-- The category both operands have to belong to. -/
def operands : BinaryOp → Category
  | numericAdd | numericSub | numericMul | numericDiv | numericMod => .numeric
  | comparisonLt | comparisonLe | comparisonGt | comparisonGe => .numeric
  | comparisonEq | comparisonNe => .any
  | logicalAnd | logicalOr => .boolean
  | stringConcat | stringContains | stringStartsWith | stringEndsWith | stringIndexOf => .string

/-- The comparison that holds exactly when this one does not. -/
def negate? : BinaryOp → Option BinaryOp
  | comparisonEq => some comparisonNe
  | comparisonNe => some comparisonEq
  | comparisonLt => some comparisonGe
  | comparisonLe => some comparisonGt
  | comparisonGt => some comparisonLe
  | comparisonGe => some comparisonLt
  | _ => none

end BinaryOp

/-! ## Ternary operators -/

namespace TernaryOp

/-- The name an operator is encoded with. -/
def name : TernaryOp → String
  | stringReplace => "string-replace"
  | stringSubstring => "string-substring"

instance : Keyword TernaryOp where
  all := [stringReplace, stringSubstring]
  word := name
  find?_word := by intro a; cases a <;> rfl

instance : Ord TernaryOp := Keyword.ord
instance : Std.TransOrd TernaryOp := Keyword.transOrd
instance : Std.LawfulEqOrd TernaryOp := Keyword.lawfulEqOrd

/-- How the operator is written before its operands. -/
def symbol : TernaryOp → String
  | stringReplace => "strreplace"
  | stringSubstring => "strsub"

instance : ToString TernaryOp := ⟨symbol⟩

/-- The categories of the first operand and of the two others. -/
def operands : TernaryOp → Category × Category
  | stringReplace => (.string, .string)
  | stringSubstring => (.string, .numeric)

end TernaryOp

end AbstractDomains
