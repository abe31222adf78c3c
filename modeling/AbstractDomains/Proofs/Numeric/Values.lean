import AbstractDomains.Proofs.Semantics

/-!
# Values with numbers

`Value N` are the values of programs that compute with numbers of type `N`, and
`Arithmetic.semantics` is the meaning of expressions on them, for any arithmetic on `N`. Quotients
and remainders can be undefined. No domain here looks into strings, so the operators on strings,
and the type test, are any partial functions (`TextOperators`).
-/

namespace AbstractDomains

/-- A value of a running program. -/
inductive Value (N : Type) where
  | number (n : N)
  | bool (b : Bool)
  | str (s : String)
  | null
  | reference (object : Nat)
  | void
deriving DecidableEq

namespace Value

/-- The runtime type of a value. -/
def typeOf {N : Type} : Value N → RuntimeType
  | number _ => .numeric
  | bool _ => .boolean
  | str _ => .string
  | null => .null
  | reference _ => .reference
  | void => .void

end Value

/-- What the operators on numbers compute. -/
structure Arithmetic (N : Type) where
  /-- The number an integer literal stands for. -/
  literal : Int64 → N
  neg : N → N
  add : N → N → N
  sub : N → N → N
  mul : N → N → N
  div : N → N → Option N
  rem : N → N → Option N
  lt : N → N → Bool
  le : N → N → Bool

/-- What the operators on strings and the type test compute. -/
structure TextOperators (N : Type) where
  length : String → Option (Value N)
  typeOf : Value N → Option (Value N)
  binary : BinaryOp → String → String → Option (Value N)
  replace : String → String → String → Option (Value N)
  substring : String → N → N → Option (Value N)

/-- Operators on strings and a type test that are never defined. -/
def TextOperators.undefined (N : Type) : TextOperators N where
  length _ := none
  typeOf _ := none
  binary _ _ _ := none
  replace _ _ _ := none
  substring _ _ _ := none

namespace Arithmetic

variable {N : Type} (A : Arithmetic N) (T : TextOperators N)

/-- The value of a constant. -/
def constant : Constant → Value N
  | .int n => .number (A.literal n)
  | .bool b => .bool b
  | .str s => .str s
  | .null => .null

/-- The result of an operator on one operand. -/
def unary : UnaryOp → Value N → Option (Value N)
  | .numericNeg, .number a => some (.number (A.neg a))
  | .logicalNot, .bool b => some (.bool (!b))
  | .stringLength, .str s => T.length s
  | .typeOf, v => T.typeOf v
  | _, _ => none

/-- Only numbers have an opposite. -/
theorem unary_neg {u w : Value N} (h : A.unary T .numericNeg u = some w) :
    ∃ a, u = .number a ∧ w = .number (A.neg a) := by
  cases u with
  | number a => exact ⟨a, rfl, (Option.some.inj h).symm⟩
  | _ => exact nomatch h

/-- The result of an operator on two numbers. -/
def onNumbers : BinaryOp → N → N → Option (Value N)
  | .numericAdd, a, b => some (.number (A.add a b))
  | .numericSub, a, b => some (.number (A.sub a b))
  | .numericMul, a, b => some (.number (A.mul a b))
  | .numericDiv, a, b => (A.div a b).map .number
  | .numericMod, a, b => (A.rem a b).map .number
  | .comparisonLt, a, b => some (.bool (A.lt a b))
  | .comparisonLe, a, b => some (.bool (A.le a b))
  | .comparisonGt, a, b => some (.bool (A.lt b a))
  | .comparisonGe, a, b => some (.bool (A.le b a))
  | _, _, _ => none

/-- The result of a connective. -/
def onBools : BinaryOp → Bool → Bool → Option (Value N)
  | .logicalAnd, a, b => some (.bool (a && b))
  | .logicalOr, a, b => some (.bool (a || b))
  | _, _, _ => none

variable [DecidableEq N]

/-- Whether two values are the same, or are not. -/
def onAny : BinaryOp → Value N → Value N → Option (Value N)
  | .comparisonEq, u, v => some (.bool (decide (u = v)))
  | .comparisonNe, u, v => some (.bool (decide (u ≠ v)))
  | _, _, _ => none

/-- The result of an operator on two operands, by the category it takes. -/
def binary (op : BinaryOp) (u v : Value N) : Option (Value N) :=
  match op.operands, u, v with
  | .any, u, v => onAny op u v
  | .numeric, .number a, .number b => A.onNumbers op a b
  | .boolean, .bool a, .bool b => onBools op a b
  | .string, .str s, .str t => T.binary op s t
  | _, _, _ => none

/-- The result of an operator on three operands. -/
def ternary : TernaryOp → Value N → Value N → Value N → Option (Value N)
  | .stringReplace, .str s, .str t, .str u => T.replace s t u
  | .stringSubstring, .str s, .number a, .number b => T.substring s a b
  | _, _, _, _ => none

theorem binary_includes {op : BinaryOp} {u v w : Value N} (h : A.binary T op u v = some w) :
    op.operands.includes u.typeOf = true ∧ op.operands.includes v.typeOf = true := by
  unfold binary at h
  split at h
  · rename_i hop
    rw [hop]
    exact ⟨rfl, rfl⟩
  · rename_i hop
    rw [hop]
    exact ⟨rfl, rfl⟩
  · rename_i hop
    rw [hop]
    exact ⟨rfl, rfl⟩
  · rename_i hop
    rw [hop]
    exact ⟨rfl, rfl⟩
  · exact nomatch h

/-- An operator on numbers has a value only on two numbers. -/
theorem binary_of_numeric {op : BinaryOp} (hop : op.operands = .numeric) {u v w : Value N}
    (h : A.binary T op u v = some w) :
    ∃ a b, u = .number a ∧ v = .number b ∧ A.onNumbers op a b = some w := by
  unfold binary at h
  rw [hop] at h
  split at h
  · rename_i h'
    exact nomatch h'
  · exact ⟨_, _, rfl, rfl, h⟩
  · rename_i h'
    exact nomatch h'
  · rename_i h'
    exact nomatch h'
  · exact nomatch h

/-- **The meaning of expressions** over an arithmetic. -/
def semantics : Semantics (Value N) where
  typeOf := Value.typeOf
  ofBool := .bool
  constant := A.constant
  unary := A.unary T
  binary := A.binary T
  ternary := ternary T
  ofBool_ne := nofun
  exists_ofBool {v} h := by
    cases v with
    | bool b => exact ⟨b, rfl⟩
    | _ => exact nomatch h
  constant_bool _ := rfl
  unary_includes {op v w} h := by
    unfold unary at h
    split at h
    · rfl
    · rfl
    · rfl
    · rfl
    · exact nomatch h
  binary_includes := A.binary_includes T
  ternary_includes {op u v w x} h := by
    unfold ternary at h
    split at h
    · exact ⟨rfl, rfl, rfl⟩
    · exact ⟨rfl, rfl, rfl⟩
    · exact nomatch h
  binary_eq {u v w} h := by
    obtain rfl := Option.some.inj h
    by_cases huv : u = v
    · exact .inl ⟨congrArg Value.bool (decide_eq_true huv), huv⟩
    · exact .inr ⟨congrArg Value.bool (decide_eq_false huv), huv⟩
  unary_not h := (Option.some.inj h).symm
  binary_and h := (Option.some.inj h).symm
  binary_or h := (Option.some.inj h).symm

variable {A T} in
/-- A numeric variable takes the number it has. -/
theorem evaluates_var {ρ : Store (Value N)} {x : Identifier} {n : N} (h : ρ x = .number n) :
    (A.semantics T).Evaluates ρ (.var x (.single .numeric)) (.number n) :=
  h ▸ .var (h ▸ TypeSet.admits_single .numeric)

/-- Exact integers, with any partial functions as quotient and remainder. -/
def integers (div rem : Int → Int → Option Int) : Arithmetic Int where
  literal n := n.toInt
  neg a := -a
  add a b := a + b
  sub a b := a - b
  mul a b := a * b
  div := div
  rem := rem
  lt a b := a < b
  le a b := a ≤ b

end Arithmetic

end AbstractDomains
