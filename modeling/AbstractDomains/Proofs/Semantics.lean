import AbstractDomains.Expr.Typing
import AbstractDomains.Satisfiability

/-!
# What expressions mean when the program runs

`Semantics V` gives constants and operators their meaning on a type `V` of values, and `Evaluates`
relates an expression to every value it can take in a store.

* Operators are strict partial functions, defined only on values of the categories they declare.
  `==` tests two values for identity, and the connectives are boolean.
* A node takes a value only if its candidate types are not known yet or include the type of the
  value (`TypeSet.admits`). `pushAny` takes any such value and `skip` takes none.

Results:
* `Evaluates.operandsFit`: an operation on an operand that does not fit has no value.
* `agrees_negate`, `agrees_and`, `agrees_or`: right answers about truth values have right negations,
  conjunctions and disjunctions.
-/

namespace AbstractDomains

/-- Whether a node with these candidate types can take a value of type `t`. -/
def TypeSet.admits (s : TypeSet) (t : RuntimeType) : Bool :=
  s.isUntyped || s.contains t

theorem TypeSet.admits_single (t : RuntimeType) : (single t).admits t = true := by
  simp [admits, single]

/-- An operand that can take a value of the category fits. -/
theorem TypeSet.accepts_of_admits {s : TypeSet} {t : RuntimeType} {c : Category}
    (ha : s.admits t = true) (hc : c.includes t = true) : s.accepts c = true := by
  simp only [admits, Bool.or_eq_true] at ha
  simp only [accepts, Bool.or_eq_true, List.any_eq_true]
  rcases ha with ha | ha
  · exact .inl (.inl ha)
  · exact .inr ⟨t, mem_toList.mpr ha, hc⟩

/-- Every operand fits where all categories are accepted. -/
theorem TypeSet.accepts_any (s : TypeSet) : s.accepts .any = true := by
  cases hs : s.toList with
  | nil =>
    have hempty : s = empty := toList_injective (hs.trans rfl)
    subst hempty
    rfl
  | cons t rest => simp [accepts, hs, Category.includes]

/-- The meaning of constants and operators on the values `V` of running programs. -/
structure Semantics (V : Type) where
  typeOf : V → RuntimeType
  ofBool : Bool → V
  constant : Constant → V
  unary : UnaryOp → V → Option V
  binary : BinaryOp → V → V → Option V
  ternary : TernaryOp → V → V → V → Option V
  /-- The truth values are two, and all there is of their type. -/
  ofBool_ne : ofBool true ≠ ofBool false
  exists_ofBool : ∀ {v}, typeOf v = .boolean → ∃ b, v = ofBool b
  constant_bool : ∀ b, constant (.bool b) = ofBool b
  /-- Operators are defined only on values of their declared categories. -/
  unary_includes : ∀ {op v w}, unary op v = some w → op.operand.includes (typeOf v) = true
  binary_includes : ∀ {op u v w}, binary op u v = some w →
    op.operands.includes (typeOf u) = true ∧ op.operands.includes (typeOf v) = true
  ternary_includes : ∀ {op u v w x}, ternary op u v w = some x →
    op.operands.1.includes (typeOf u) = true ∧ op.operands.2.includes (typeOf v) = true ∧
      op.operands.2.includes (typeOf w) = true
  /-- Equality is identity. -/
  binary_eq : ∀ {u v w}, binary .comparisonEq u v = some w →
    (w = ofBool true ∧ u = v) ∨ (w = ofBool false ∧ u ≠ v)
  /-- The connectives are boolean. -/
  unary_not : ∀ {b w}, unary .logicalNot (ofBool b) = some w → w = ofBool (!b)
  binary_and : ∀ {a b w}, binary .logicalAnd (ofBool a) (ofBool b) = some w → w = ofBool (a && b)
  binary_or : ∀ {a b w}, binary .logicalOr (ofBool a) (ofBool b) = some w → w = ofBool (a || b)

/-- The values of the program's variables. -/
abbrev Store (V : Type) := Identifier → V

namespace Store

variable {V : Type}

/-- The store after a variable is given a value. -/
def set (ρ : Store V) (x : Identifier) (v : V) : Store V :=
  fun y => if y = x then v else ρ y

@[simp]
theorem set_self (ρ : Store V) (x : Identifier) (v : V) : ρ.set x v x = v :=
  if_pos rfl

theorem set_of_ne {ρ : Store V} {x y : Identifier} {v : V} (h : y ≠ x) : ρ.set x v y = ρ y :=
  if_neg h

theorem set_get (ρ : Store V) (x : Identifier) : ρ.set x (ρ x) = ρ := by
  funext y
  unfold set
  split
  · rename_i h
    rw [h]
  · rfl

end Store

namespace Semantics

variable {V : Type} (S : Semantics V)

/-- The values an expression can take in a store. -/
inductive Evaluates (ρ : Store V) : Expr → V → Prop
  | constant {value types} : types.admits (S.typeOf (S.constant value)) = true →
      Evaluates ρ (.constant value types) (S.constant value)
  | var {id types} : types.admits (S.typeOf (ρ id)) = true → Evaluates ρ (.var id types) (ρ id)
  | pushAny {types v} : types.admits (S.typeOf v) = true → Evaluates ρ (.pushAny types) v
  | unary {op arg types v w} : Evaluates ρ arg v → S.unary op v = some w →
      types.admits (S.typeOf w) = true → Evaluates ρ (.unary op arg types) w
  | binary {op left right types u v w} : Evaluates ρ left u → Evaluates ρ right v →
      S.binary op u v = some w → types.admits (S.typeOf w) = true →
      Evaluates ρ (.binary op left right types) w
  | ternary {op left middle right types u v w x} : Evaluates ρ left u → Evaluates ρ middle v →
      Evaluates ρ right w → S.ternary op u v w = some x → types.admits (S.typeOf x) = true →
      Evaluates ρ (.ternary op left middle right types) x

variable {S} {ρ : Store V}

theorem Evaluates.admits {e : Expr} {v : V} (h : S.Evaluates ρ e v) :
    e.types.admits (S.typeOf v) = true := by
  cases h <;> assumption

/-- **An operation on an operand that does not fit has no value.** -/
theorem Evaluates.operandsFit {e : Expr} {v : V} (h : S.Evaluates ρ e v) :
    e.operandsFit = true := by
  cases h with
  | constant _ | var _ | pushAny _ => rfl
  | unary harg hop _ => exact TypeSet.accepts_of_admits harg.admits (S.unary_includes hop)
  | binary hl hr hop _ =>
    obtain ⟨h₁, h₂⟩ := S.binary_includes hop
    exact Bool.and_eq_true_iff.mpr
      ⟨TypeSet.accepts_of_admits hl.admits h₁, TypeSet.accepts_of_admits hr.admits h₂⟩
  | ternary hl hm hr hop _ =>
    obtain ⟨h₁, h₂, h₃⟩ := S.ternary_includes hop
    exact Bool.and_eq_true_iff.mpr ⟨Bool.and_eq_true_iff.mpr
      ⟨TypeSet.accepts_of_admits hl.admits h₁, TypeSet.accepts_of_admits hm.admits h₂⟩,
      TypeSet.accepts_of_admits hr.admits h₃⟩

/-- A variable takes the value it has. -/
theorem Evaluates.var_inv {id : Identifier} {types : TypeSet} {v : V}
    (h : S.Evaluates ρ (.var id types) v) : v = ρ id := by
  cases h
  rfl

/-! ## Connectives -/

theorem ofBool_inj {a b : Bool} : S.ofBool a = S.ofBool b ↔ a = b := by
  have h := S.ofBool_ne
  cases a <;> cases b <;> simp [h, h.symm]

/-- A negation that has a value negates a truth value of its operand. -/
theorem Evaluates.not_inv {arg : Expr} {types : TypeSet} {w : V}
    (h : S.Evaluates ρ (.unary .logicalNot arg types) w) :
    ∃ b, S.Evaluates ρ arg (S.ofBool b) ∧ w = S.ofBool (!b) := by
  cases h with
  | unary harg hop _ =>
    obtain ⟨b, rfl⟩ := S.exists_ofBool (of_decide_eq_true (S.unary_includes hop))
    exact ⟨b, harg, S.unary_not hop⟩

theorem Evaluates.and_inv {left right : Expr} {types : TypeSet} {w : V}
    (h : S.Evaluates ρ (.binary .logicalAnd left right types) w) :
    ∃ a b, S.Evaluates ρ left (S.ofBool a) ∧ S.Evaluates ρ right (S.ofBool b) ∧
      w = S.ofBool (a && b) := by
  cases h with
  | binary hl hr hop _ =>
    obtain ⟨h₁, h₂⟩ := S.binary_includes hop
    obtain ⟨a, rfl⟩ := S.exists_ofBool (of_decide_eq_true h₁)
    obtain ⟨b, rfl⟩ := S.exists_ofBool (of_decide_eq_true h₂)
    exact ⟨a, b, hl, hr, S.binary_and hop⟩

theorem Evaluates.or_inv {left right : Expr} {types : TypeSet} {w : V}
    (h : S.Evaluates ρ (.binary .logicalOr left right types) w) :
    ∃ a b, S.Evaluates ρ left (S.ofBool a) ∧ S.Evaluates ρ right (S.ofBool b) ∧
      w = S.ofBool (a || b) := by
  cases h with
  | binary hl hr hop _ =>
    obtain ⟨h₁, h₂⟩ := S.binary_includes hop
    obtain ⟨a, rfl⟩ := S.exists_ofBool (of_decide_eq_true h₁)
    obtain ⟨b, rfl⟩ := S.exists_ofBool (of_decide_eq_true h₂)
    exact ⟨a, b, hl, hr, S.binary_or hop⟩

/-- An equality that is true has operands of one value. -/
theorem Evaluates.eq_inv {left right : Expr} {types : TypeSet}
    (h : S.Evaluates ρ (.binary .comparisonEq left right types) (S.ofBool true)) :
    ∃ v, S.Evaluates ρ left v ∧ S.Evaluates ρ right v := by
  cases h with
  | binary hl hr hop _ =>
    rcases S.binary_eq hop with ⟨-, rfl⟩ | ⟨h, -⟩
    · exact ⟨_, hl, hr⟩
    · exact absurd h S.ofBool_ne

variable (S)

/-- Whether an answer is right about the value a condition takes. -/
def Agrees : Satisfiability → V → Prop
  | .satisfied, v => v ≠ S.ofBool false
  | .notSatisfied, v => v ≠ S.ofBool true
  | .unknown, _ => True

variable {S}

theorem agrees_ofBool (b : Bool) : S.Agrees (.ofBool b) (S.ofBool b) := by
  cases b <;> simp [Agrees, Satisfiability.ofBool, ofBool_inj]

theorem agrees_negate {s : Satisfiability} {b : Bool} (h : S.Agrees s (S.ofBool b)) :
    S.Agrees s.negate (S.ofBool (!b)) := by
  cases s <;> cases b <;> simp_all [Agrees, Satisfiability.negate, ofBool_inj]

theorem agrees_and {s t : Satisfiability} {a b : Bool} (hs : S.Agrees s (S.ofBool a))
    (ht : S.Agrees t (S.ofBool b)) : S.Agrees (s.and t) (S.ofBool (a && b)) := by
  cases s <;> cases t <;> simp_all [Agrees, Satisfiability.and, ofBool_inj]

theorem agrees_or {s t : Satisfiability} {a b : Bool} (hs : S.Agrees s (S.ofBool a))
    (ht : S.Agrees t (S.ofBool b)) : S.Agrees (s.or t) (S.ofBool (a || b)) := by
  cases s <;> cases t <;> simp_all [Agrees, Satisfiability.or, ofBool_inj]

end Semantics

end AbstractDomains
