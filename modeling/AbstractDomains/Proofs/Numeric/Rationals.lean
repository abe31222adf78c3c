import Mathlib.Data.Rat.Floor
import AbstractDomains.Proofs.Environment
import AbstractDomains.Proofs.Numeric.SignArithmetic

/-!
# Signs of rational numbers

`Arithmetic.rational` are the exact operations on rational numbers, where the remainder is that of
the quotient rounded towards zero.

Results:
* `Arithmetic.rational_exactQuotients`: these are operations of an ordered ring.
* `Sign.refuted_equality_right_iff`: when an equality is refuted rightly.
* `Sign.rational_sound`: the signs found for expressions are right, and so are the answers about
  conditions that do not rest on an equality.
-/

namespace AbstractDomains

/-- The integer part of a number, which is rounded towards zero. -/
def truncate (q : ℚ) : ℤ :=
  if 0 ≤ q then ⌊q⌋ else ⌈q⌉

/-- Rounding towards zero leaves a rest on the side of the number. -/
theorem truncate_le {q : ℚ} (hq : 0 ≤ q) : (truncate q : ℚ) ≤ q := by
  unfold truncate
  rw [if_pos hq]
  exact Int.floor_le q

theorem le_truncate {q : ℚ} (hq : q ≤ 0) : q ≤ truncate q := by
  unfold truncate
  split
  · rename_i h
    rw [le_antisymm hq h]
    simp
  · exact Int.le_ceil q

namespace Arithmetic

/-- Exact operations on rational numbers, with the remainder of a truncated quotient. -/
def rational : Arithmetic ℚ where
  literal n := n.toInt
  neg a := -a
  add a b := a + b
  sub a b := a - b
  mul a b := a * b
  div a b := if b = 0 then none else some (a / b)
  rem a b := if b = 0 then none else some (a - b * truncate (a / b))
  lt a b := a < b
  le a b := a ≤ b

/-- The remainder is a rest of the quotient, scaled by the divisor. -/
theorem rational_rem {a b r : ℚ} (h : rational.rem a b = some r) :
    b ≠ 0 ∧ (0 ≤ a → 0 ≤ r) ∧ (a ≤ 0 → r ≤ 0) := by
  simp only [rational, Option.ite_none_left_eq_some, Option.some.injEq] at h
  obtain ⟨hb, rfl⟩ := h
  have hr : a - b * truncate (a / b) = b * (a / b - truncate (a / b)) := by
    rw [mul_sub, mul_div_cancel₀ a hb]
  rw [hr]
  refine ⟨hb, fun ha => ?_, fun ha => ?_⟩
  · rcases lt_or_gt_of_ne hb with hneg | hpos
    · exact mul_nonneg_of_nonpos_of_nonpos hneg.le
        (sub_nonpos.mpr (le_truncate (div_nonpos_of_nonneg_of_nonpos ha hneg.le)))
    · exact mul_nonneg hpos.le (sub_nonneg.mpr (truncate_le (div_nonneg ha hpos.le)))
  · rcases lt_or_gt_of_ne hb with hneg | hpos
    · exact mul_nonpos_of_nonpos_of_nonneg hneg.le
        (sub_nonneg.mpr (truncate_le (div_nonneg_of_nonpos ha hneg.le)))
    · exact mul_nonpos_of_nonneg_of_nonpos hpos.le
        (sub_nonpos.mpr (le_truncate (div_nonpos_of_nonpos_of_nonneg ha hpos.le)))

theorem rational_exactQuotients : rational.ExactQuotients where
  literal _ := rfl
  neg _ := rfl
  add _ _ := rfl
  sub _ _ := rfl
  mul _ _ := rfl
  rem := rational_rem
  lt _ _ := rfl
  le _ _ := rfl
  div {a b q} h := by
    simp only [rational, Option.ite_none_left_eq_some, Option.some.injEq] at h
    obtain ⟨hb, rfl⟩ := h
    exact ⟨hb, div_mul_cancel₀ a hb⟩

end Arithmetic

namespace Sign

open Arithmetic (rational rational_exactQuotients)

variable {env : Environment Sign} {ρ : Store (Value ℚ)}

/-- Every expression has a sign, which covers every value it can take. -/
theorem contains_eval (T : TextOperators ℚ) (hρ : env.Describes Contains ρ) (e : Expr)
    (point : ProgramPoint) :
    ∃ s, env.eval e point = .ok s ∧
      ∀ v, (rational.semantics T).Evaluates ρ e v → s.Contains v := by
  obtain ⟨s, hs⟩ := Environment.eval_succeeds totalDomain e
  have hE : EvalSound (rational.semantics T) Contains := evalSound rational_exactQuotients
  exact ⟨s, hs, fun v hv => Environment.eval_sound latticeSound.toJoinSound hE hρ hv hs⟩

/-- **Signs are sound for exact rational arithmetic.** The sign found for an expression covers every
value it can take, and the answer for a condition that does not rest on an equality is right about
every value it can take. -/
theorem rational_sound (T : TextOperators ℚ) (hρ : env.Describes Contains ρ) (e : Expr)
    (point : ProgramPoint) :
    (∃ s, env.eval e point = .ok s ∧ ∀ v, (rational.semantics T).Evaluates ρ e v → s.Contains v) ∧
      (.comparisonEq ∉ e.deciders → ∃ answer, env.satisfies e point = .ok answer ∧
        ∀ v, (rational.semantics T).Evaluates ρ e v →
          (rational.semantics T).Agrees answer v) := by
  refine ⟨contains_eval T hρ e point, fun hops => ?_⟩
  obtain ⟨answer, ha⟩ := Environment.satisfies_succeeds totalDomain e
  have hall : ∀ op ∈ e.deciders, op ≠ .comparisonEq := by
    rintro op hop rfl
    exact hops hop
  exact ⟨answer, ha, fun v hv => Environment.satisfies_sound latticeSound.toJoinSound
    (evalSound rational_exactQuotients) (answerSound rational_exactQuotients.toExact) hρ hall hv ha⟩

/-- Whether dividing `x` by `y` makes it less. -/
def lessWhenDivided : Expr :=
  let number := TypeSet.single .numeric
  let quotient := .binary .numericDiv (.var "x" number) (.var "y" number) number
  .binary .comparisonLt quotient (.var "x" number) (.single .boolean)

theorem rational_sound_lessWhenDivided :
    let env : Environment Sign := .entries (.ofList [("x", .plus), ("y", .zeroMinus)])
    let ρ : Store (Value ℚ) := fun x => .number (if x = "x" then 1 / 2 else -3)
    env.Describes Contains ρ ∧ env.satisfies lessWhenDivided ⟨"test"⟩ = .ok .satisfied ∧
      ∀ v, (rational.semantics (.undefined ℚ)).Evaluates ρ lessWhenDivided v → v ≠ .bool false := by
  intro env ρ
  have hρ : env.Describes Contains ρ := by
    refine Pointwise.describes_ofList fun e he => ?_
    rcases List.mem_pair.mp he with rfl | rfl
    · show (0 : ℚ) < 1 / 2
      norm_num
    · show (-3 : ℚ) ≤ 0
      norm_num
  have hsat : env.satisfies lessWhenDivided ⟨"test"⟩ = .ok .satisfied := rfl
  obtain ⟨-, h⟩ := rational_sound (.undefined ℚ) hρ lessWhenDivided ⟨"test"⟩
  obtain ⟨answer, ha, hright⟩ := h (by decide)
  obtain rfl := Except.ok.inj (ha.symm.trans hsat)
  exact ⟨hρ, hsat, hright⟩

/-! ## Equalities

An equality is refuted if its operands have incomparable signs. Such signs have no number in common
with one exception: "zero or positive" and "zero or negative" both stand for zero, so an equality of
two zeros is refuted.
-/

theorem MeetAtZero.incomparable {s t : Sign} (h : MeetAtZero s t) :
    leq s t = .ok false ∧ leq t s = .ok false ∧ s.Contains (.number (0 : ℚ)) ∧
      t.Contains (.number (0 : ℚ)) := by
  rcases h with ⟨rfl, rfl⟩ | ⟨rfl, rfl⟩
  · exact ⟨rfl, rfl, le_refl 0, le_refl 0⟩
  · exact ⟨rfl, rfl, le_refl 0, le_refl 0⟩

/-- Whether the operands have signs that meet at zero. -/
def OperandsMeetAtZero (env : Environment Sign) (l r : Expr) (point : ProgramPoint) : Prop :=
  ∃ s t, env.eval l point = .ok s ∧ env.eval r point = .ok t ∧ MeetAtZero s t

variable {l r : Expr} {types : TypeSet} {point : ProgramPoint} {s t : Sign}

/-- The answer for an equality, by the signs of its operands. -/
theorem satisfies_eq (hρ : env.Describes Contains ρ) (hs : env.eval l point = .ok s)
    (ht : env.eval r point = .ok t) :
    env.satisfies (.binary .comparisonEq l r types) point =
      if isBottom s || isBottom t then .ok .notSatisfied
      else satisfiesBinary .comparisonEq s t := by
  rw [Environment.satisfies_equality hρ.ne_bottom, hs, ht]
  rfl

/-- A refuted equality whose operands share a value is one of signs that meet at zero. -/
theorem operandsMeetAtZero_of_refuted {T : TextOperators ℚ} {v : Value ℚ}
    (hρ : env.Describes Contains ρ)
    (h : env.satisfies (.binary .comparisonEq l r types) point = .ok .notSatisfied)
    (hl : (rational.semantics T).Evaluates ρ l v) (hr : (rational.semantics T).Evaluates ρ r v) :
    OperandsMeetAtZero env l r point ∧ v = .number 0 := by
  obtain ⟨s, hs, hsv⟩ := contains_eval T hρ l point
  obtain ⟨t, ht, htv⟩ := contains_eval T hρ r point
  have hsb : isBottom s = false :=
    Bool.eq_false_iff.mpr fun hb => latticeSound.empty hb (hsv v hl)
  have htb : isBottom t = false :=
    Bool.eq_false_iff.mpr fun hb => latticeSound.empty hb (htv v hr)
  rw [satisfies_eq hρ hs ht, hsb, htb, Bool.or_false, if_neg Bool.false_ne_true,
    satisfiesBinary_eq] at h
  by_cases hzero : s = zero ∧ t = zero
  · rw [if_pos hzero] at h
    exact nomatch h
  · rw [if_neg hzero] at h
    rcases unequalIfIncomparable_inv h with h | ⟨-, hst, hts⟩
    · exact nomatch h
    · obtain ⟨hmeet, hv⟩ := shared_of_incomparable hst hts (hsv v hl) (htv v hr)
      exact ⟨⟨s, t, hs, ht, hmeet⟩, hv⟩

/-- An equality of signs that meet at zero is refuted. -/
theorem refuted_of_operandsMeetAtZero (hρ : env.Describes Contains ρ)
    (h : OperandsMeetAtZero env l r point) :
    env.satisfies (.binary .comparisonEq l r types) point = .ok .notSatisfied := by
  obtain ⟨s, t, hs, ht, ⟨rfl, rfl⟩ | ⟨rfl, rfl⟩⟩ := h
  · rw [satisfies_eq hρ hs ht]
    rfl
  · rw [satisfies_eq hρ hs ht]
    rfl

/-- **When refuting an equality is right.** If an equality is refuted, the environment is left empty
where it is assumed, so no described store may give both operands one value. That holds for all
operands except those whose signs meet at zero and that can both be zero; among the signs
themselves, all incomparable ones are disjoint except those two. -/
theorem refuted_equality_right_iff (T : TextOperators ℚ) (env : Environment Sign) (l r : Expr)
    (types : TypeSet) (point : ProgramPoint) :
    ((env.satisfies (.binary .comparisonEq l r types) point = .ok .notSatisfied →
        env.assume (.binary .comparisonEq l r types) point = .ok .bottom ∧
        ∀ ρ, env.Describes Contains ρ → ∀ v, (rational.semantics T).Evaluates ρ l v →
          ¬ (rational.semantics T).Evaluates ρ r v) ↔
      ¬ (OperandsMeetAtZero env l r point ∧ ∃ ρ, env.Describes Contains ρ ∧
        (rational.semantics T).Evaluates ρ l (.number 0) ∧
        (rational.semantics T).Evaluates ρ r (.number 0))) ∧
    ∀ s t : Sign, (leq s t = .ok false → leq t s = .ok false →
        ∀ v : Value ℚ, s.Contains v → ¬ t.Contains v) ↔ ¬ MeetAtZero s t := by
  refine ⟨⟨fun h hmeet => ?_, fun hmeet h => ⟨?_, fun ρ hρ v hl hr => hmeet ?_⟩⟩, fun s t =>
    ⟨fun h hmeet => ?_, fun hmeet hst hts v hs ht => hmeet ?_⟩⟩
  · obtain ⟨hmeet, ρ, hρ, hl, hr⟩ := hmeet
    exact (h (refuted_of_operandsMeetAtZero hρ hmeet)).2 ρ hρ _ hl hr
  · unfold Environment.assume
    rw [h]
    rfl
  · obtain ⟨hmeet, rfl⟩ := operandsMeetAtZero_of_refuted hρ h hl hr
    exact ⟨hmeet, ρ, hρ, hl, hr⟩
  · obtain ⟨hst, hts, hs, ht⟩ := hmeet.incomparable
    exact h hst hts _ hs ht
  · exact (shared_of_incomparable hst hts hs ht).1

/-- Two zeros that are known only to lie on opposite sides are equal, and their equality is
refuted. -/
theorem refuted_equality_of_zeros :
    let x : Expr := .var "x" (.single .numeric)
    let y : Expr := .var "y" (.single .numeric)
    let equality : Expr := .binary .comparisonEq x y (.single .boolean)
    let env : Environment Sign := .entries (.ofList [("x", .zeroPlus), ("y", .zeroMinus)])
    let ρ : Store (Value ℚ) := fun _ => .number 0
    env.satisfies equality ⟨"test"⟩ = .ok .notSatisfied ∧
      env.assume equality ⟨"test"⟩ = .ok .bottom ∧ env.Describes Contains ρ ∧
      (rational.semantics (.undefined ℚ)).Evaluates ρ x (.number 0) ∧
      (rational.semantics (.undefined ℚ)).Evaluates ρ y (.number 0) ∧
      (rational.semantics (.undefined ℚ)).Evaluates ρ equality (.bool true) := by
  intro x y equality env ρ
  have hρ : env.Describes Contains ρ := by
    refine Pointwise.describes_ofList fun e he => ?_
    rcases List.mem_pair.mp he with rfl | rfl
    · exact le_refl (0 : ℚ)
    · exact le_refl (0 : ℚ)
  have hmeet : OperandsMeetAtZero env x y ⟨"test"⟩ := ⟨_, _, rfl, rfl, .inl ⟨rfl, rfl⟩⟩
  have hsat : env.satisfies equality ⟨"test"⟩ = .ok .notSatisfied :=
    refuted_of_operandsMeetAtZero hρ hmeet
  have hx : (rational.semantics (.undefined ℚ)).Evaluates ρ x (.number 0) :=
    Arithmetic.evaluates_var rfl
  have hy : (rational.semantics (.undefined ℚ)).Evaluates ρ y (.number 0) :=
    Arithmetic.evaluates_var rfl
  refine ⟨hsat, ?_, hρ, hx, hy, .binary hx hy rfl (TypeSet.admits_single .boolean)⟩
  unfold Environment.assume
  rw [hsat]
  rfl

end Sign

end AbstractDomains
