import AbstractDomains.Keyword

/-!
# Runtime types

The types a value can have when the program runs, as fine-grained as the domains need, and the
categories of operand an operator asks for.
-/

namespace AbstractDomains

/-- The type of a value at run time; `untyped` is the placeholder of unfinished type inference. -/
inductive RuntimeType where
  | untyped
  | numeric
  | boolean
  | string
  | null
  | reference
  | void
deriving DecidableEq

namespace RuntimeType

/-- Types in order of declaration. -/
protected def all : List RuntimeType :=
  [untyped, numeric, boolean, string, null, reference, void]

/-- The name a type is displayed and encoded with. -/
def name : RuntimeType → String
  | untyped => "untyped"
  | numeric => "numeric"
  | boolean => "boolean"
  | string => "string"
  | null => "null"
  | reference => "reference"
  | void => "void"

instance : Keyword RuntimeType where
  all := RuntimeType.all
  word := name
  find?_word := by intro a; cases a <;> rfl

instance : Ord RuntimeType := Keyword.ord
instance : Std.TransOrd RuntimeType := Keyword.transOrd
instance : Std.LawfulEqOrd RuntimeType := Keyword.lawfulEqOrd
instance : ToString RuntimeType := ⟨name⟩

end RuntimeType

/-- What an operator expects of one of its operands. -/
inductive Category where
  | any
  | numeric
  | boolean
  | string
deriving DecidableEq

namespace Category

/-- The name of a category. -/
def name : Category → String
  | any => "any"
  | numeric => "numeric"
  | boolean => "boolean"
  | string => "string"

instance : Keyword Category where
  all := [any, numeric, boolean, string]
  word := name
  find?_word := by intro a; cases a <;> rfl

/-- Whether values of a type belong to the category. -/
def includes : Category → RuntimeType → Bool
  | any, _ => true
  | numeric, t => t = .numeric
  | boolean, t => t = .boolean
  | string, t => t = .string

end Category

end AbstractDomains
