import AbstractDomains.Numeric.Parity
import AbstractDomains.Proofs.Numeric.Values
import AbstractDomains.Proofs.Totality

/-!
# Parities are sound

"Even" and "odd" stand for the numbers of that kind, for any arithmetic that computes parities the
way the integers do (`Arithmetic.RespectsParity`). Arithmetic on parities is then arithmetic on
truth values, and each table is checked once for each of its entries.

Results:
* `Parity.has_add`, `Parity.has_mul`: the tables.
* `Parity.disjoint_of_ne`: distinct parities have no value in common.
* `Parity.domainSound`: parities are a sound domain.
* `Parity.totalDomain`: no hook fails.
-/

namespace AbstractDomains

variable {N : Type} {isOdd : N → Bool}

/-- The parity of a result is that of the same operation on integers. -/
structure Arithmetic.RespectsParity (A : Arithmetic N) (isOdd : N → Bool) : Prop where
  literal : ∀ n, isOdd (A.literal n) = decide (n.toInt % 2 ≠ 0)
  neg : ∀ a, isOdd (A.neg a) = isOdd a
  add : ∀ a b, isOdd (A.add a b) = (isOdd a ^^ isOdd b)
  sub : ∀ a b, isOdd (A.sub a b) = (isOdd a ^^ isOdd b)
  mul : ∀ a b, isOdd (A.mul a b) = (isOdd a && isOdd b)

/-- Whether an integer is odd. -/
def isOddInt (n : Int) : Bool :=
  n % 2 ≠ 0

theorem isOddInt_neg (a : Int) : isOddInt (-a) = isOddInt a := by
  unfold isOddInt
  exact decide_eq_decide.mpr (by omega)

theorem isOddInt_add (a b : Int) : isOddInt (a + b) = (isOddInt a ^^ isOddInt b) := by
  rcases Int.emod_two_eq a with ha | ha <;> rcases Int.emod_two_eq b with hb | hb <;>
    simp [isOddInt, Int.add_emod, ha, hb]

theorem isOddInt_mul (a b : Int) : isOddInt (a * b) = (isOddInt a && isOddInt b) := by
  rcases Int.emod_two_eq a with ha | ha <;> rcases Int.emod_two_eq b with hb | hb <;>
    simp [isOddInt, Int.mul_emod, ha, hb]

/-- **Exact integers respect parity**, whatever their quotients and remainders are. -/
theorem Arithmetic.integers_respectsParity (div rem : Int → Int → Option Int) :
    (integers div rem).RespectsParity isOddInt where
  literal _ := rfl
  neg := isOddInt_neg
  add := isOddInt_add
  sub a b := by
    show isOddInt (a - b) = _
    rw [Int.sub_eq_add_neg, isOddInt_add, isOddInt_neg]
  mul := isOddInt_mul

namespace Parity

open Analysis (Succeeds succeeds_ok)

/-- The values a parity stands for. -/
def Contains (isOdd : N → Bool) : Parity → Value N → Prop
  | top, _ => True
  | even, .number n => isOdd n = false
  | odd, .number n => isOdd n = true
  | _, _ => False

/-! ## Tables -/

/-- Whether a parity stands for odd numbers, and for even ones. -/
def has : Parity → Bool → Bool
  | bottom, _ => false
  | even, b => !b
  | odd, b => b
  | top, _ => true

theorem contains_number {p : Parity} {n : N} :
    p.Contains isOdd (.number n) ↔ p.has (isOdd n) = true := by
  cases p <;> simp [Contains, has]

theorem has_ofInt (n : Int) : (ofInt n).has (decide (n % 2 ≠ 0)) = true := by
  unfold ofInt
  split
  · rename_i h
    simp [has, h]
  · rename_i h
    simp [has, h]

theorem has_add {p q : Parity} {a b : Bool} (hp : p.has a = true) (hq : q.has b = true) :
    (p.add q).has (a ^^ b) = true := by
  revert hp hq
  cases p <;> cases q <;> cases a <;> cases b <;> decide

theorem has_mul {p q : Parity} {a b : Bool} (hp : p.has a = true) (hq : q.has b = true) :
    (p.mul q).has (a && b) = true := by
  revert hp hq
  cases p <;> cases q <;> cases a <;> cases b <;> decide

/-- **Distinct parities, neither of which is top, have no value in common.** -/
theorem disjoint_of_ne {p q : Parity} {v : Value N} (hne : p ≠ q) (hp : p ≠ top) (hq : q ≠ top)
    (hv : p.Contains isOdd v) : ¬ q.Contains isOdd v := by
  intro hw
  cases v with
  | number n =>
    rw [contains_number] at hv hw
    revert hne hp hq hv hw
    cases p <;> cases q <;> cases isOdd n <;> decide
  | _ =>
    cases p
    case top => exact hp rfl
    all_goals exact hv

/-! ## Soundness -/

theorem latticeSound : LatticeSound (Contains isOdd) := by
  refine .of_proper of_decide_eq_true of_decide_eq_true (fun _ => id) (fun _ => trivial) ?_ ?_ ?_
  · intro p q r v _ hr _
    obtain rfl := Except.ok.inj hr
    trivial
  · intro p q r v _ hr _
    obtain rfl := Except.ok.inj hr
    trivial
  · intro p q r v hpq _ hp hq
    have hptop : p ≠ top := of_decide_eq_false hpq.left_top
    have hqtop : q ≠ top := of_decide_eq_false hpq.right_top
    exact absurd hq (disjoint_of_ne hpq.ne hptop hqtop hp)

theorem contains_ofConstant {A : Arithmetic N} (hA : A.RespectsParity isOdd) (value : Constant) :
    (ofConstant value).Contains isOdd (A.constant value) := by
  cases value with
  | int n =>
    show (ofInt n.toInt).Contains isOdd (.number (A.literal n))
    rw [contains_number, hA.literal]
    exact has_ofInt n.toInt
  | _ => trivial

variable {A : Arithmetic N} {T : TextOperators N}

theorem contains_evalUnary (hA : A.RespectsParity isOdd) {op : UnaryOp} {p : Parity}
    {v w : Value N} (hv : p.Contains isOdd v) (hw : A.unary T op v = some w) :
    (evalUnary op p).Contains isOdd w := by
  cases op with
  | numericNeg =>
    obtain ⟨a, rfl, rfl⟩ := A.unary_neg T hw
    rw [contains_number] at hv ⊢
    rw [hA.neg]
    exact hv
  | _ => trivial

variable [DecidableEq N]

theorem contains_evalBinary (hA : A.RespectsParity isOdd) {op : BinaryOp} {p q : Parity}
    {u v w : Value N} (hu : p.Contains isOdd u) (hv : q.Contains isOdd v)
    (hw : A.binary T op u v = some w) : (evalBinary op p q).Contains isOdd w := by
  cases op
  case numericAdd =>
    obtain ⟨a, b, rfl, rfl, hw⟩ := A.binary_of_numeric T rfl hw
    obtain rfl := Option.some.inj hw
    rw [contains_number] at hu hv ⊢
    rw [hA.add]
    exact has_add hu hv
  case numericSub =>
    obtain ⟨a, b, rfl, rfl, hw⟩ := A.binary_of_numeric T rfl hw
    obtain rfl := Option.some.inj hw
    rw [contains_number] at hu hv ⊢
    rw [hA.sub]
    exact has_add hu hv
  case numericMul =>
    obtain ⟨a, b, rfl, rfl, hw⟩ := A.binary_of_numeric T rfl hw
    obtain rfl := Option.some.inj hw
    rw [contains_number] at hu hv ⊢
    rw [hA.mul]
    exact has_mul hu hv
  all_goals trivial

/-- **Parities are a sound domain**, for every arithmetic that computes them like the integers. -/
theorem domainSound (hA : A.RespectsParity isOdd) :
    DomainSound (A.semantics T) (Contains isOdd) where
  toLatticeSound := latticeSound
  null h := Except.ok.inj h ▸ trivial
  nonNull _ h := Except.ok.inj h ▸ contains_ofConstant hA _
  variable_any h := Except.ok.inj h ▸ trivial
  pushAny h _ := Except.ok.inj h ▸ trivial
  unary h hv hw := Except.ok.inj h ▸ contains_evalUnary hA hv hw
  binary h hu hv hw := Except.ok.inj h ▸ contains_evalBinary hA hu hv hw
  ternary h _ _ _ _ := Except.ok.inj h ▸ trivial
  answer_value h _ := Except.ok.inj h ▸ trivial
  answer_unary h _ _ := Except.ok.inj h ▸ trivial
  answer_binary {op} _ {_ _ _ _ _ _ _} h hu hv hw := by
    cases op
    case comparisonEq =>
      refine unequalIfIncomparable_agrees ?_ h hu hv hw
      intro x hab hba hx
      obtain ⟨hne, -, hb⟩ := leq_eq_false hab
      obtain ⟨-, -, ha⟩ := leq_eq_false hba
      exact disjoint_of_ne hne (of_decide_eq_false ha) (of_decide_eq_false hb) hx
    all_goals exact Except.ok.inj h ▸ trivial
  answer_ternary h _ _ _ _ := Except.ok.inj h ▸ trivial

/-- Parities never fail. -/
theorem totalDomain : TotalDomain Parity where
  null _ := succeeds_ok _
  nonNull _ _ := succeeds_ok _
  unbound _ _ := succeeds_ok _
  pushAny _ _ := succeeds_ok _
  skip _ := succeeds_ok _
  unary _ _ _ := succeeds_ok _
  binary _ _ _ _ := succeeds_ok _
  ternary _ _ _ _ _ := succeeds_ok _
  answer_value _ _ := succeeds_ok _
  answer_unary _ _ _ := succeeds_ok _
  answer_binary op p q _ := by
    cases op
    case comparisonEq => exact unequalIfIncomparable_succeeds (fun _ _ => succeeds_ok _) p q
    all_goals exact succeeds_ok _
  answer_ternary _ _ _ _ _ := succeeds_ok _

end Parity

end AbstractDomains
