import AbstractDomains.Proofs.ArbitraryReductions
import AbstractDomains.Proofs.Numeric.Precision
import AbstractDomains.Proofs.UndefinedConditions

/-!
# Undefined parts reach the root

Evaluation stops at the first operand that has no value or does not fit, so what is undefined need
not be visited: another part may have stopped it before, or have failed. Either way nothing is found
for the root but bottom.

Results:
* `eval_undefined_of_operand`: one step up the expression.
* `eval_undefined_of_node`: from any node to the root.
* `undefined_reaches_root`: in every domain, and without errors in the domains of signs, of parities
  and of both.
-/

namespace AbstractDomains

open ValueDomain Analysis

namespace Expr

/-- The nodes are the root and those of the operands. -/
theorem mem_nodes_iff {e node : Expr} :
    node ∈ e.nodes ↔ node = e ∨ ∃ operand ∈ e.operands, node ∈ operand.nodes := by
  cases e <;> simp [nodes, operands]

/-- What holds of an expression if it does of the operands holds of all. -/
theorem induction_on_operands {P : Expr → Prop}
    (step : ∀ e : Expr, (∀ operand ∈ e.operands, P operand) → P e) (e : Expr) : P e := by
  induction e with
  | constant | var | pushAny | skip => exact step _ fun _ h => absurd h List.not_mem_nil
  | unary op arg types ih => exact step _ (by simpa [operands] using ih)
  | binary op left right types ihl ihr => exact step _ (by simpa [operands] using ⟨ihl, ihr⟩)
  | ternary op left middle right types ihl ihm ihr =>
    exact step _ (by simpa [operands] using ⟨ihl, ihm, ihr⟩)

end Expr

/-- Something in an expression is undefined: a part of it other than itself has no value, or the
operands of a node do not fit its operator. -/
def HasUndefinedPart {α : Type} [DecidableEq α] [AbstractLattice α] (value : Expr → Analysis α)
    (e : Expr) : Prop :=
  (∃ operand ∈ e.operands, ∃ part ∈ operand.nodes, value part = .ok bottom) ∨
    ∃ node ∈ e.nodes, node.operandsFit = false

variable {α : Type} [DecidableEq α] [ValueDomain α]

/-- Nothing but bottom is found; there may be an error. -/
def Undefined (x : Analysis α) : Prop :=
  ∀ a, x = .ok a → a = bottom

theorem undefined_bottom : Undefined (.ok bottom : Analysis α) :=
  fun _ h => (Except.ok.inj h).symm

theorem undefined_iff {x : Analysis α} :
    Undefined x ↔ x = .ok bottom ∨ ∃ error, x = .error error := by
  cases x with
  | error error => exact iff_of_true (fun a h => by cases h) (.inr ⟨error, rfl⟩)
  | ok a =>
    refine ⟨fun h => .inl (congrArg Except.ok (h a rfl)), ?_⟩
    rintro (h | ⟨error, h⟩)
    · rw [h]
      exact undefined_bottom
    · cases h

/-- An operation whose first operand is undefined is undefined. -/
theorem undefined_onDefined (hbottom : ∀ {a : α}, isBottom a = true ↔ a = bottom) {x : Analysis α}
    {f : α → Analysis α} (h : Undefined x) : Undefined (onDefined x f) := by
  intro b hb
  obtain ⟨a, ha, ⟨-, rfl⟩ | ⟨hdefined, -⟩⟩ := onDefined_inv hb
  · exact h _ ha
  · exact absurd (hdefined.symm.trans (hbottom.mpr (h a ha))) Bool.false_ne_true

/-- So is one that is undefined however its first operand is defined. -/
theorem undefined_onDefined_of_rest (hbottom : ∀ {a : α}, isBottom a = true ↔ a = bottom)
    {x : Analysis α} {f : α → Analysis α} (h : ∀ a, Undefined (f a)) :
    Undefined (onDefined x f) := by
  intro b hb
  obtain ⟨a, -, ⟨ha, rfl⟩ | ⟨-, hb⟩⟩ := onDefined_inv hb
  · exact hbottom.mp ha
  · exact h a b hb

variable {lookup : Identifier → Option α} {point : ProgramPoint} {e operand node : Expr}

/-- **One step up**: an undefined operand leaves the operation undefined, in whatever place it
stands. -/
theorem eval_undefined_of_operand (hbottom : ∀ {a : α}, isBottom a = true ↔ a = bottom)
    (hmem : operand ∈ e.operands) (h : Undefined (eval lookup point operand)) :
    Undefined (eval lookup point e) := by
  by_cases hfit : e.operandsFit = true
  · cases e with
    | constant | var | pushAny | skip => exact absurd hmem List.not_mem_nil
    | unary op arg types =>
      obtain rfl := List.mem_singleton.mp hmem
      rw [eval_unary hfit]
      exact undefined_onDefined hbottom h
    | binary op left right types =>
      rw [eval_binary hfit]
      -- an operand before it may end the evaluation, with bottom or an error
      rcases List.mem_pair.mp hmem with rfl | rfl
      · exact undefined_onDefined hbottom h
      · exact undefined_onDefined_of_rest hbottom fun _ => undefined_onDefined hbottom h
    | ternary op left middle right types =>
      rw [eval_ternary hfit]
      simp only [Expr.operands, List.mem_cons, List.not_mem_nil, or_false] at hmem
      rcases hmem with rfl | rfl | rfl
      · exact undefined_onDefined hbottom h
      · exact undefined_onDefined_of_rest hbottom fun _ => undefined_onDefined hbottom h
      · exact undefined_onDefined_of_rest hbottom fun _ =>
          undefined_onDefined_of_rest hbottom fun _ => undefined_onDefined hbottom h
  · rw [eval_of_misfit hfit]
    exact undefined_bottom

/-- **From any node to the root.** -/
theorem eval_undefined_of_node (hbottom : ∀ {a : α}, isBottom a = true ↔ a = bottom)
    (hmem : node ∈ e.nodes) (h : Undefined (eval lookup point node)) :
    Undefined (eval lookup point e) := by
  induction e using Expr.induction_on_operands with
  | step e ih =>
    rcases Expr.mem_nodes_iff.mp hmem with rfl | ⟨operand, hoperand, hmem⟩
    · exact h
    · exact eval_undefined_of_operand hbottom hoperand (ih operand hoperand hmem)

theorem eval_undefined (hbottom : ∀ {a : α}, isBottom a = true ↔ a = bottom)
    (h : HasUndefinedPart (eval lookup point) e) : Undefined (eval lookup point e) := by
  rcases h with ⟨operand, hoperand, part, hpart, hundef⟩ | ⟨node, hnode, hmisfit⟩
  · refine eval_undefined_of_operand hbottom hoperand (eval_undefined_of_node hbottom hpart ?_)
    rw [hundef]
    exact undefined_bottom
  · refine eval_undefined_of_node hbottom hnode ?_
    rw [eval_of_misfit (Bool.eq_false_iff.mp hmisfit)]
    exact undefined_bottom

/-- Nothing can fail in a total domain. -/
theorem eval_eq_bottom (hD : TotalDomain α) (hbottom : ∀ {a : α}, isBottom a = true ↔ a = bottom)
    (h : HasUndefinedPart (eval lookup point) e) : eval lookup point e = .ok bottom := by
  obtain ⟨a, ha⟩ : (eval lookup point e).Succeeds := eval_succeeds hD e
  rw [ha, eval_undefined hbottom h a ha]

/-- **Undefinedness reaches the root**, from any depth. Where something in an expression is
undefined, bottom is found for it or there is an error, in every domain in which bottom alone counts
as bottom. In the domains of signs, of parities and of both it is bottom. -/
theorem undefined_reaches_root (point : ProgramPoint) (e : Expr) :
    (∀ (α : Type) [DecidableEq α] [ValueDomain α] (lookup : Identifier → Option α),
      (∀ a : α, isBottom a = true ↔ a = bottom) → HasUndefinedPart (eval lookup point) e →
      eval lookup point e = .ok bottom ∨ ∃ error, eval lookup point e = .error error) ∧
    (∀ lookup : Identifier → Option Sign, HasUndefinedPart (eval lookup point) e →
      eval lookup point e = .ok bottom) ∧
    (∀ lookup : Identifier → Option Parity, HasUndefinedPart (eval lookup point) e →
      eval lookup point e = .ok bottom) ∧
    ∀ lookup : Identifier → Option SignParity, HasUndefinedPart (eval lookup point) e →
      eval lookup point e = .ok bottom := by
  refine ⟨fun α _ _ lookup hbottom h => ?_, fun _ => ?_, fun _ => ?_, fun _ => ?_⟩
  · exact undefined_iff.mp (eval_undefined (hbottom _) h)
  · exact eval_eq_bottom Sign.totalDomain decide_eq_true_iff
  · exact eval_eq_bottom Parity.totalDomain decide_eq_true_iff
  · exact eval_eq_bottom SignParity.totalDomain decide_eq_true_iff

/-- The sum of two variables. -/
def sumOfPair : Expr :=
  let number := TypeSet.single .numeric
  .binary .numericAdd (.var "x" number) (.var "y" number) number

/-- One divided by zero. -/
def oneByZero : Expr :=
  let number := TypeSet.single .numeric
  .binary .numericDiv (.constant (.int 1) number) (.constant (.int 0) number) number

/-- A number joined to a text. -/
def numberJoined : Expr :=
  let text := TypeSet.single .string
  .binary .stringConcat (.var "x" (.single .numeric)) (.pushAny text) text

/-- The sum of two variables and the length of a text, which has no value. -/
def sumWithLength : Expr :=
  let number := TypeSet.single .numeric
  .binary .numericAdd sumOfPair (.unary .stringLength numberJoined number) number

/-- The reduction fails for the sum, so a quotient by zero beside it is found if it comes first.
Signs and parities are bottom from a misfit two levels down. -/
theorem undefined_reaches_root_of_sum :
    let lookup := lookupPair (⟨.zeroPlus, .odd⟩ : ReducedProduct ReducedProduct.erratic)
      ⟨.zeroPlus, .odd⟩
    let sumFirst : Expr := .binary .numericMul sumOfPair oneByZero (.single .numeric)
    let quotientFirst : Expr := .binary .numericMul oneByZero sumOfPair (.single .numeric)
    (eval lookup ⟨"test"⟩ sumFirst = .error (.unknownSite ⟨"zero", none⟩) ∧
      (eval lookup ⟨"test"⟩ sumFirst = .ok .bottom ∨
        ∃ error, eval lookup ⟨"test"⟩ sumFirst = .error error)) ∧
    (eval lookup ⟨"test"⟩ quotientFirst = .ok .bottom ∧
      (eval lookup ⟨"test"⟩ quotientFirst = .ok .bottom ∨
        ∃ error, eval lookup ⟨"test"⟩ quotientFirst = .error error)) ∧
    eval (lookupPair Sign.plus .plus) ⟨"test"⟩ sumWithLength = .ok .bottom ∧
    eval (lookupPair Parity.odd .odd) ⟨"test"⟩ sumWithLength = .ok .bottom ∧
    eval (lookupPair (⟨.plus, .odd⟩ : SignParity) ⟨.plus, .odd⟩) ⟨"test"⟩ sumWithLength =
      .ok .bottom := by
  intro lookup sumFirst quotientFirst
  have hquotient : eval lookup ⟨"test"⟩ oneByZero = .ok bottom := rfl
  have hpart : ∃ part ∈ oneByZero.nodes, eval lookup ⟨"test"⟩ part = .ok bottom :=
    ⟨oneByZero, oneByZero.mem_nodes_self, hquotient⟩
  have hsecond : HasUndefinedPart (eval lookup ⟨"test"⟩) sumFirst :=
    .inl ⟨oneByZero, List.mem_cons_of_mem _ List.mem_cons_self, hpart⟩
  have hfirst : HasUndefinedPart (eval lookup ⟨"test"⟩) quotientFirst :=
    .inl ⟨oneByZero, List.mem_cons_self, hpart⟩
  have hbottom : ∀ p : ReducedProduct ReducedProduct.erratic, isBottom p = true ↔ p = bottom :=
    fun _ => decide_eq_true_iff
  have hmisfit : ∃ node ∈ sumWithLength.nodes, node.operandsFit = false :=
    ⟨numberJoined, by decide, by decide⟩
  obtain ⟨-, hsign, hparity, hboth⟩ := undefined_reaches_root ⟨"test"⟩ sumWithLength
  exact ⟨⟨rfl, (undefined_reaches_root ⟨"test"⟩ sumFirst).1 _ lookup hbottom hsecond⟩,
    ⟨rfl, (undefined_reaches_root ⟨"test"⟩ quotientFirst).1 _ lookup hbottom hfirst⟩,
    hsign _ (.inr hmisfit), hparity _ (.inr hmisfit), hboth _ (.inr hmisfit)⟩

end AbstractDomains
