import Mathlib.Algebra.Order.Field.Basic
import AbstractDomains.Proofs.Numeric.Signs
import AbstractDomains.Proofs.Totality

/-!
# Signs are sound

Two arithmetics are told apart. `Arithmetic.Exact` are the operations of an ordered ring, with a
remainder on the side of zero of the dividend; `Arithmetic.ExactQuotients` adds division without
rounding.

Results:
* `Sign.contains_evalBinary_of_ne_div`: the signs of sums, products and remainders.
* `Sign.evalSound`: the signs found for expressions are right where division does not round.
* `Sign.answerSound`: the answers about conditions are right, those for equalities apart.
* `Sign.totalDomain`: no hook fails.
-/

namespace AbstractDomains

variable {N : Type} [Ring N] [LinearOrder N]

/-- The operations of an ordered ring. A remainder lies on the side of zero of the dividend, and
there is none for the divisor zero. -/
structure Arithmetic.Exact (A : Arithmetic N) : Prop where
  literal : ∀ n, A.literal n = (n.toInt : N)
  neg : ∀ a, A.neg a = -a
  add : ∀ a b, A.add a b = a + b
  sub : ∀ a b, A.sub a b = a - b
  mul : ∀ a b, A.mul a b = a * b
  rem : ∀ {a b r}, A.rem a b = some r → b ≠ 0 ∧ (0 ≤ a → 0 ≤ r) ∧ (a ≤ 0 → r ≤ 0)
  lt : ∀ a b, A.lt a b = decide (a < b)
  le : ∀ a b, A.le a b = decide (a ≤ b)

/-- Division without rounding as well. -/
structure Arithmetic.ExactQuotients (A : Arithmetic N) : Prop extends A.Exact where
  div : ∀ {a b q}, A.div a b = some q → b ≠ 0 ∧ q * b = a

namespace Sign

open SignType (sign)
open Analysis (Succeeds succeeds_ok)

variable {A : Arithmetic N} {T : TextOperators N} {s t : Sign} {a b : N}

/-! ## Comparisons -/

/-- The answer for a comparison is right if both of its grounds are. -/
theorem answer_agrees {V : Type} {S : Semantics V} {yes no b : Bool}
    (hyes : yes = true → b = true) (hno : no = true → b = false) :
    S.Agrees (answer yes no) (S.ofBool b) := by
  unfold answer
  by_cases hy : yes = true
  · rw [if_pos hy, hyes hy]
    exact Semantics.agrees_ofBool true
  · rw [if_neg hy]
    by_cases hn : no = true
    · rw [if_pos hn, hno hn]
      exact Semantics.agrees_ofBool false
    · rw [if_neg hn]
      trivial

theorem answer_lt (hA : A.Exact) (ha : s.Contains (.number a)) (hb : t.Contains (.number b)) :
    (A.semantics T).Agrees (answer (s.strictlyBelow t) (t.weaklyBelow s)) (.bool (A.lt a b)) := by
  rw [hA.lt]
  exact answer_agrees (fun hlt => decide_eq_true (lt_of_contains hlt ha hb))
    (fun hle => decide_eq_false (not_lt.mpr (le_of_contains hle hb ha)))

theorem answer_le (hA : A.Exact) (ha : s.Contains (.number a)) (hb : t.Contains (.number b)) :
    (A.semantics T).Agrees (answer (s.weaklyBelow t) (t.strictlyBelow s)) (.bool (A.le a b)) := by
  rw [hA.le]
  exact answer_agrees (fun hle => decide_eq_true (le_of_contains hle ha hb))
    (fun hlt => decide_eq_false (not_le.mpr (lt_of_contains hlt hb ha)))

/-- **The answers about signs are right**, those for equalities apart. -/
theorem satisfiesBinary_agrees (hA : A.Exact) {op : BinaryOp} (hop : op ≠ .comparisonEq)
    {r : Satisfiability} {u v w : Value N} (h : satisfiesBinary op s t = .ok r) (hu : s.Contains u)
    (hv : t.Contains v) (hw : A.binary T op u v = some w) : (A.semantics T).Agrees r w := by
  cases op
  case comparisonEq => exact absurd rfl hop
  case comparisonLt =>
    obtain ⟨a, b, rfl, rfl, hw⟩ := A.binary_of_numeric T rfl hw
    obtain rfl := Option.some.inj hw
    obtain rfl := Except.ok.inj h
    exact answer_lt hA hu hv
  case comparisonLe =>
    obtain ⟨a, b, rfl, rfl, hw⟩ := A.binary_of_numeric T rfl hw
    obtain rfl := Option.some.inj hw
    obtain rfl := Except.ok.inj h
    exact answer_le hA hu hv
  -- a greater number is one that the other is less than
  case comparisonGt =>
    obtain ⟨a, b, rfl, rfl, hw⟩ := A.binary_of_numeric T rfl hw
    obtain rfl := Option.some.inj hw
    obtain rfl := Except.ok.inj h
    exact answer_lt hA hv hu
  case comparisonGe =>
    obtain ⟨a, b, rfl, rfl, hw⟩ := A.binary_of_numeric T rfl hw
    obtain rfl := Option.some.inj hw
    obtain rfl := Except.ok.inj h
    exact answer_le hA hv hu
  all_goals exact Except.ok.inj h ▸ trivial

theorem answerSound (hA : A.Exact) : AnswerSound (A.semantics T) Contains (· ≠ .comparisonEq) where
  answer_value h _ := Except.ok.inj h ▸ trivial
  answer_unary h _ _ := Except.ok.inj h ▸ trivial
  answer_binary hop := by
    intro s t point r u v w h hu hv hw
    exact satisfiesBinary_agrees hA hop h hu hv hw
  answer_ternary h _ _ _ _ := Except.ok.inj h ▸ trivial

/-- Equalities are decided for two zeros, and else only refuted. -/
theorem satisfiesBinary_eq (s t : Sign) : satisfiesBinary .comparisonEq s t =
    if s = zero ∧ t = zero then .ok .satisfied else unequalIfIncomparable s t := by
  cases s <;> cases t <;> rfl

/-! ## Operations -/

theorem contains_rem {r : N} (hs : s.Contains (.number a)) (ht : t.Contains (.number b))
    (hb : b ≠ 0) (hnonneg : 0 ≤ a → 0 ≤ r) (hnonpos : a ≤ 0 → r ≤ 0) :
    (s.rem t).Contains (.number r) := by
  rw [contains_number] at hs ht ⊢
  refine has_rem hs ht (sign_ne_zero.mpr hb) ?_ ?_
  · rw [sign_nonneg_iff, sign_nonneg_iff]
    exact hnonneg
  · rw [sign_nonpos_iff, sign_nonpos_iff]
    exact hnonpos

variable [IsStrictOrderedRing N]

theorem isSum_sign (a b : N) : IsSum (sign a) (sign b) (sign (a + b)) := by
  refine ⟨fun h => ?_, fun h => ?_, fun h => ?_⟩
  · rcases lt_trichotomy a 0 with ha | rfl | ha
    · rw [sign_neg ha, eq_comm, sign_eq_neg_one_iff] at h
      rw [sign_neg ha, sign_neg (add_neg ha h)]
    · rw [sign_zero, eq_comm, sign_eq_zero_iff] at h
      rw [h, add_zero]
    · rw [sign_pos ha, eq_comm, sign_eq_one_iff] at h
      rw [sign_pos ha, sign_pos (add_pos ha h)]
  · rw [sign_eq_zero_iff.mp h, zero_add]
  · rw [sign_eq_zero_iff.mp h, add_zero]

theorem contains_add (hs : s.Contains (.number a)) (ht : t.Contains (.number b)) :
    (s.add t).Contains (.number (a + b)) := by
  rw [contains_number] at hs ht ⊢
  exact has_add hs ht (isSum_sign a b)

theorem contains_negate (hs : s.Contains (.number a)) : s.negate.Contains (.number (-a)) := by
  rw [contains_number] at hs ⊢
  rw [Left.sign_neg]
  exact has_negate hs

theorem contains_sub (hs : s.Contains (.number a)) (ht : t.Contains (.number b)) :
    (s.sub t).Contains (.number (a - b)) := by
  rw [sub_eq_add_neg]
  exact contains_add hs (contains_negate ht)

theorem contains_mul (hs : s.Contains (.number a)) (ht : t.Contains (.number b)) :
    (s.mul t).Contains (.number (a * b)) := by
  rw [contains_number] at hs ht ⊢
  rw [sign_mul]
  exact has_mul hs ht

theorem contains_div {q : N} (hs : s.Contains (.number a)) (ht : t.Contains (.number b))
    (hb : b ≠ 0) (hq : q * b = a) : (s.div t).Contains (.number q) := by
  rw [contains_number] at hs ht ⊢
  refine has_div hs ht (sign_ne_zero.mpr hb) ?_
  rw [← sign_mul, hq]

theorem contains_ofInt (n : Int) : (ofInt n).Contains (.number (n : N)) := by
  unfold ofInt
  by_cases hneg : n < 0
  · rw [if_pos hneg]
    exact Int.cast_lt_zero.mpr hneg
  · rw [if_neg hneg]
    by_cases hzero : n = 0
    · rw [if_pos hzero, hzero]
      exact Int.cast_zero
    · rw [if_neg hzero]
      have hpos : 0 < n := by omega
      exact Int.cast_pos.mpr hpos

theorem contains_ofConstant (hA : A.Exact) (value : Constant) :
    (ofConstant value).Contains (A.constant value) := by
  cases value with
  | int n =>
    show (ofInt n.toInt).Contains (.number (A.literal n))
    rw [hA.literal]
    exact contains_ofInt n.toInt
  | _ => trivial

theorem contains_evalUnary (hA : A.Exact) {op : UnaryOp} {v w : Value N} (hv : s.Contains v)
    (hw : A.unary T op v = some w) : (evalUnary op s).Contains w := by
  cases op with
  | numericNeg =>
    obtain ⟨a, rfl, rfl⟩ := A.unary_neg T hw
    rw [hA.neg]
    exact contains_negate hv
  | _ => trivial

/-- Apart from quotients, exact arithmetic is all it takes. -/
theorem contains_evalBinary_of_ne_div (hA : A.Exact) {op : BinaryOp} (hop : op ≠ .numericDiv)
    {u v w : Value N} (hu : s.Contains u) (hv : t.Contains v) (hw : A.binary T op u v = some w) :
    (evalBinary op s t).Contains w := by
  cases op
  case numericDiv => exact absurd rfl hop
  case numericAdd =>
    obtain ⟨a, b, rfl, rfl, hw⟩ := A.binary_of_numeric T rfl hw
    obtain rfl := Option.some.inj hw
    rw [hA.add]
    exact contains_add hu hv
  case numericSub =>
    obtain ⟨a, b, rfl, rfl, hw⟩ := A.binary_of_numeric T rfl hw
    obtain rfl := Option.some.inj hw
    rw [hA.sub]
    exact contains_sub hu hv
  case numericMul =>
    obtain ⟨a, b, rfl, rfl, hw⟩ := A.binary_of_numeric T rfl hw
    obtain rfl := Option.some.inj hw
    rw [hA.mul]
    exact contains_mul hu hv
  case numericMod =>
    obtain ⟨a, b, rfl, rfl, hw⟩ := A.binary_of_numeric T rfl hw
    obtain ⟨r, hr, rfl⟩ := Option.map_eq_some_iff.mp hw
    obtain ⟨hb, hnonneg, hnonpos⟩ := hA.rem hr
    exact contains_rem hu hv hb hnonneg hnonpos
  all_goals trivial

theorem contains_evalBinary (hA : A.ExactQuotients) {op : BinaryOp} {u v w : Value N}
    (hu : s.Contains u) (hv : t.Contains v) (hw : A.binary T op u v = some w) :
    (evalBinary op s t).Contains w := by
  by_cases hop : op = .numericDiv
  · subst hop
    obtain ⟨a, b, rfl, rfl, hw⟩ := A.binary_of_numeric T rfl hw
    obtain ⟨q, hq, rfl⟩ := Option.map_eq_some_iff.mp hw
    obtain ⟨hb, hq⟩ := hA.div hq
    exact contains_div hu hv hb hq
  · exact contains_evalBinary_of_ne_div hA.toExact hop hu hv hw

theorem evalSoundApartFromBinary (hA : A.Exact) :
    EvalSoundApartFromBinary (A.semantics T) (Contains (N := N)) where
  null h := Except.ok.inj h ▸ trivial
  nonNull _ h := Except.ok.inj h ▸ contains_ofConstant hA _
  variable_any h := Except.ok.inj h ▸ trivial
  pushAny h _ := Except.ok.inj h ▸ trivial
  unary h hv hw := Except.ok.inj h ▸ contains_evalUnary hA hv hw
  ternary h _ _ _ _ := Except.ok.inj h ▸ trivial

/-- **Signs are found soundly** where division does not round. -/
theorem evalSound (hA : A.ExactQuotients) : EvalSound (A.semantics T) (Contains (N := N)) :=
  (evalSoundApartFromBinary hA.toExact).evalSound
    fun h hu hv hw => Except.ok.inj h ▸ contains_evalBinary hA hu hv hw

/-- No hook of the domain fails. -/
theorem totalDomain : TotalDomain Sign where
  null _ := succeeds_ok _
  nonNull _ _ := succeeds_ok _
  unbound _ _ := succeeds_ok _
  pushAny _ _ := succeeds_ok _
  skip _ := succeeds_ok _
  unary _ _ _ := succeeds_ok _
  binary _ _ _ _ := succeeds_ok _
  ternary _ _ _ _ _ := succeeds_ok _
  answer_value _ _ := succeeds_ok _
  answer_unary _ _ _ := succeeds_ok _
  answer_binary op s t _ := by
    cases op
    case comparisonEq =>
      show Succeeds (satisfiesBinary .comparisonEq s t)
      rw [satisfiesBinary_eq]
      split
      · exact succeeds_ok _
      · exact unequalIfIncomparable_succeeds (fun _ _ => succeeds_ok _) s t
    all_goals exact succeeds_ok _
  answer_ternary _ _ _ _ _ := succeeds_ok _

end Sign

end AbstractDomains
