import AbstractDomains.Numeric.SignParity
import AbstractDomains.Proofs.Numeric.Parities
import AbstractDomains.Proofs.Numeric.SignArithmetic
import AbstractDomains.Proofs.ReducedProduct

/-!
# Signs and parities of integers

`Arithmetic.truncating` are the exact operations on integers, with quotients rounded towards zero.
Both components of a sign-parity pair are sound for it, up to one point: the sign of a quotient is
that of an exact quotient, and `1 / 2` is zero where a positive number is expected.

Results:
* `SignParity.reduction_keeps`, `SignParity.totalDomain`: the reduction drops no value, and the
  product never fails.
* `Sign.contains_tdiv`: rounded quotients of signs.
* `SignParity.integer_values_covered_iff`: the values of an expression and all its operands are
  covered except where a division rounds to zero against the sign found for it.
-/

namespace AbstractDomains

/-- Exact integers, with quotients rounded towards zero and the remainders that go with them. -/
def Arithmetic.truncating : Arithmetic Int :=
  integers (fun a b => if b = 0 then none else some (a.tdiv b))
    (fun a b => if b = 0 then none else some (a.tmod b))

theorem Arithmetic.truncating_div {a b q : Int} (h : truncating.div a b = some q) :
    b ≠ 0 ∧ q = a.tdiv b := by
  simp only [truncating, integers, Option.ite_none_left_eq_some, Option.some.injEq] at h
  exact ⟨h.1, h.2.symm⟩

/-- A remainder lies on the side of the dividend. -/
theorem Arithmetic.truncating_rem {a b r : Int} (h : truncating.rem a b = some r) :
    b ≠ 0 ∧ (0 ≤ a → 0 ≤ r) ∧ (a ≤ 0 → r ≤ 0) := by
  simp only [truncating, integers, Option.ite_none_left_eq_some, Option.some.injEq] at h
  obtain ⟨hb, rfl⟩ := h
  refine ⟨hb, Int.tmod_nonneg b, fun ha => ?_⟩
  have hneg : 0 ≤ (-a).tmod b := Int.tmod_nonneg b (Int.neg_nonneg_of_nonpos ha)
  rw [Int.neg_tmod] at hneg
  exact Int.nonpos_of_neg_nonneg hneg

theorem Arithmetic.truncating_exact : truncating.Exact where
  literal _ := rfl
  neg _ := rfl
  add _ _ := rfl
  sub _ _ := rfl
  mul _ _ := rfl
  rem := truncating_rem
  lt _ _ := rfl
  le _ _ := rfl

/-! ## Rounded quotients -/

section Quotients

open SignType (sign)

/-- A quotient that is not rounded to zero has the sign of an exact quotient. -/
theorem sign_tdiv_mul {a b : Int} (hb : b ≠ 0) (h : a ≠ 0 → b.natAbs ≤ a.natAbs) :
    (a.tdiv b).sign * b.sign = a.sign := by
  have hquotient : (a.tdiv b).sign = a.sign * b.sign := by
    rw [Int.sign_tdiv]
    by_cases ha : a = 0
    · simp [ha]
    · exact if_neg (not_lt.mpr (h ha))
  have hsquare : b.sign * b.sign = 1 := by
    rw [← Int.sign_mul]
    exact Int.sign_eq_one_of_pos (mul_self_pos.mpr hb)
  rw [hquotient, Int.mul_assoc, hsquare, Int.mul_one]

/-- **Rounded quotients** have the sign found for them, unless they are rounded to zero and that
sign is strict. -/
theorem Sign.contains_tdiv {s t : Sign} {a b : Int} (hs : s.Contains (.number a))
    (ht : t.Contains (.number b)) (hb : b ≠ 0)
    (hround : a ≠ 0 → a.natAbs < b.natAbs → s.div t ≠ .plus ∧ s.div t ≠ .minus) :
    (s.div t).Contains (.number (a.tdiv b)) := by
  rw [contains_number] at hs ht ⊢
  have hbsign : sign b ≠ 0 := sign_ne_zero.mpr hb
  by_cases h : a ≠ 0 ∧ a.natAbs < b.natAbs
  · obtain ⟨hplus, hminus⟩ := hround h.1 h.2
    have hzero : sign (a.tdiv b) = 0 := by
      rw [sign_eq_zero_iff, ← Int.sign_eq_zero_iff_zero, Int.sign_tdiv, if_pos h.2]
    rw [hzero]
    exact has_div_zero hs ht hbsign hplus hminus
  · have hle : a ≠ 0 → b.natAbs ≤ a.natAbs := fun ha => not_lt.mp fun hlt => h ⟨ha, hlt⟩
    have hcast : ∀ x y : SignType, (x : Int) = y → x = y := by decide
    have hsign : sign (a.tdiv b) * sign b = sign a := by
      apply hcast
      rw [SignType.coe_mul, ← Int.sign_eq_sign, ← Int.sign_eq_sign, ← Int.sign_eq_sign]
      exact sign_tdiv_mul hb hle
    exact has_div hs ht hbsign hsign

end Quotients

namespace SignParity

open Analysis (Succeeds succeeds_ok)

/-! ## The reduction -/

/-- The values of integer programs that a pair of a sign and a parity stands for. -/
abbrev Contains : SignParity → Value Int → Prop :=
  ReducedProduct.Contains Sign.Contains (Parity.Contains isOddInt)

/-- Sharpening drops nothing that a number can be, as zero is not odd. -/
theorem has_sharpen {s : Sign} {p : Parity} {x : SignType} {b : Bool} (hs : s.has x = true)
    (hp : p.has b = true) (hzero : x = 0 → b = false) :
    (sharpen s p).1.has x = true ∧ (sharpen s p).2.has b = true := by
  revert hs hp hzero
  cases s <;> cases p <;> decide +revert

/-- **The reduction drops no value.** -/
theorem reduction_keeps : reduction.Keeps Sign.Contains (Parity.Contains isOddInt) := by
  intro s p c v h hs hp
  obtain rfl := Except.ok.inj h
  rcases Sign.number_or_top hs with ⟨n, rfl⟩ | rfl
  · rw [Sign.contains_number] at hs ⊢
    rw [Parity.contains_number] at hp ⊢
    refine has_sharpen hs hp fun hn => ?_
    rw [sign_eq_zero_iff.mp hn]
    rfl
  · cases p <;> exact ⟨hs, hp⟩

theorem reduction_total : reduction.Total :=
  fun s p => ⟨sharpen s p, rfl, by cases s <;> cases p <;> rfl⟩

theorem leq_succeeds (p q : Sign × Parity) : (leq p q).Succeeds := by
  have hsign : ∀ s t : Sign, (AbstractLattice.leq s t).Succeeds :=
    AbstractDomains.leq_succeeds fun _ _ => succeeds_ok _
  unfold leq
  split
  · exact hsign _ _
  · exact succeeds_ok _
  · exact succeeds_ok _
  · split
    · exact hsign _ _
    · exact succeeds_ok _

theorem totalDomain : TotalDomain SignParity :=
  ReducedProduct.totalDomain Sign.totalDomain Parity.totalDomain reduction_total leq_succeeds

theorem sign_operationsSound : OperationsSound (Sign.Contains (N := Int)) :=
  Sign.latticeSound.operationsSound rfl

theorem parity_operationsSound : OperationsSound (Parity.Contains isOddInt) :=
  Parity.latticeSound.operationsSound rfl

theorem operationsSound : OperationsSound Contains :=
  ReducedProduct.operationsSound sign_operationsSound parity_operationsSound reduction_keeps

/-! ## Values of expressions -/

variable {T : TextOperators Int} {env : Environment SignParity} {ρ : Store (Value Int)}
  {point : ProgramPoint} {node : Expr}

theorem parity_evalSound :
    EvalSound (Arithmetic.truncating.semantics T) (Parity.Contains isOddInt) :=
  (Parity.domainSound (Arithmetic.integers_respectsParity _ _)).toEvalSound

variable (T env ρ point) in
/-- A division whose dividend is smaller than its divisor and not zero, so that the quotient is
rounded to zero, though the sign found for it excludes zero. -/
def RoundsAgainstSign (node : Expr) : Prop :=
  ∃ left right types a b p, node = .binary .numericDiv left right types ∧
    (Arithmetic.truncating.semantics T).Evaluates ρ left (.number a) ∧
    (Arithmetic.truncating.semantics T).Evaluates ρ right (.number b) ∧
    a ≠ 0 ∧ a.natAbs < b.natAbs ∧ types.admits .numeric = true ∧
    env.eval node point = .ok p ∧ (p.left = .plus ∨ p.left = .minus)

/-- A quotient that is rounded against its sign is not covered. -/
theorem RoundsAgainstSign.not_covered (h : RoundsAgainstSign T env ρ point node) :
    ∃ p v, env.eval node point = .ok p ∧
      (Arithmetic.truncating.semantics T).Evaluates ρ node v ∧ ¬ Contains p v := by
  obtain ⟨left, right, types, a, b, p, rfl, ha, hb, -, hlt, hadmits, hp, hstrict⟩ := h
  have hbne : b ≠ 0 := by omega
  have hzero : a.tdiv b = 0 := by
    rw [← Int.sign_eq_zero_iff_zero, Int.sign_tdiv, if_pos hlt]
  have hquotient : (Arithmetic.truncating.semantics T).binary .numericDiv (.number a) (.number b) =
      some (.number 0) := by
    show (Arithmetic.truncating.div a b).map Value.number = _
    simp [Arithmetic.truncating, Arithmetic.integers, hbne, hzero]
  refine ⟨p, .number 0, hp, .binary ha hb hquotient hadmits, fun hc => ?_⟩
  rcases hstrict with hplus | hminus
  · have hpos : Sign.plus.Contains (.number (0 : Int)) := hplus ▸ hc.1
    exact lt_irrefl 0 hpos
  · have hneg : Sign.minus.Contains (.number (0 : Int)) := hminus ▸ hc.1
    exact lt_irrefl 0 hneg

/-- The sign of a result is covered wherever an operator is applied without rounding against it. -/
theorem contains_applied {m : FinMap Identifier SignParity} {op : BinaryOp} {left right : Expr}
    {types : TypeSet} {p q c : SignParity} {u v w : Value Int}
    (happ : Applied (Arithmetic.truncating.semantics T) Contains m.get? point ρ op left right types
      p q u v w)
    (hround : ¬ RoundsAgainstSign T (.entries m) ρ point (.binary op left right types))
    (hc : ValueDomain.evalBinary op p q point = .ok c) :
    (Sign.evalBinary op p.left q.left).Contains w := by
  have hp := happ.left_gamma
  have hq := happ.right_gamma
  by_cases hop : op = .numericDiv
  · subst hop
    obtain ⟨a, b, rfl, rfl, hw⟩ :=
      Arithmetic.truncating.binary_of_numeric T rfl happ.result
    obtain ⟨d, hd, rfl⟩ := Option.map_eq_some_iff.mp hw
    obtain ⟨hb, rfl⟩ := Arithmetic.truncating_div hd
    refine Sign.contains_tdiv hp.1 hq.1 hb fun ha hlt => ?_
    -- the pair found for a division has the sign of the quotient, if that is strict
    have hstrict : ¬ (c.left = .plus ∨ c.left = .minus) := fun hstrict =>
      hround ⟨left, right, types, a, b, c, rfl, happ.left_takes, happ.right_takes, ha, hlt,
        happ.admits, (happ.eval_eq operationsSound.empty).trans hc, hstrict⟩
    have hpair : ReducedProduct.pair (p.left.div q.left) Parity.top = .ok c := hc
    refine ⟨fun hplus => ?_, fun hminus => ?_⟩
    · rw [hplus] at hpair
      obtain rfl := Except.ok.inj hpair
      exact hstrict (.inl rfl)
    · rw [hminus] at hpair
      obtain rfl := Except.ok.inj hpair
      exact hstrict (.inr rfl)
  · exact Sign.contains_evalBinary_of_ne_div Arithmetic.truncating_exact hop hp.1 hq.1 happ.result

/-- What is found covers all values an expression can take, if nothing in it rounds against its
sign. -/
theorem contains_eval {e : Expr} (hρ : env.Describes Contains ρ)
    (hround : ∀ node ∈ e.nodes, ¬ RoundsAgainstSign T env ρ point node) {p : SignParity}
    (hp : env.eval e point = .ok p) {v : Value Int}
    (hv : (Arithmetic.truncating.semantics T).Evaluates ρ e v) : Contains p v := by
  cases env with
  | bottom => exact hρ.elim
  | entries m =>
    have happly := ReducedProduct.evalSoundApartFromBinary (S := Arithmetic.truncating.semantics T)
      sign_operationsSound parity_operationsSound reduction_keeps
      (Sign.evalSoundApartFromBinary Arithmetic.truncating_exact) parity_evalSound.apartFromBinary
    refine eval_sound_of_nodes operationsSound.empty happly hρ ?_ hv hp
    intro op left right types p q c u v w hnode happ hc
    refine ReducedProduct.contains_both sign_operationsSound.empty parity_operationsSound.empty
      reduction_keeps hc ?_ ?_
    · intro s hs
      obtain rfl := Except.ok.inj hs
      exact contains_applied happ (hround _ hnode) hc
    · intro t ht
      exact parity_evalSound.binary ht happ.left_gamma.2 happ.right_gamma.2 happ.result

/-- **When signs and parities cover the integers.** A pair is found for an expression and for each
of its operands. In every store the environment describes, these pairs cover all values that the
expression and its operands can take, exactly if no division among them rounds to zero against the
sign found for it. -/
theorem integer_values_covered_iff (T : TextOperators Int) (env : Environment SignParity)
    (e : Expr) (point : ProgramPoint) :
    (∀ node ∈ e.nodes, (env.eval node point).Succeeds) ∧
    ∀ ρ : Store (Value Int), env.Describes Contains ρ →
      ((∀ node ∈ e.nodes, ∀ p, env.eval node point = .ok p →
          ∀ v, (Arithmetic.truncating.semantics T).Evaluates ρ node v → Contains p v) ↔
        ∀ node ∈ e.nodes, ¬ RoundsAgainstSign T env ρ point node) := by
  refine ⟨fun node _ => Environment.eval_succeeds totalDomain node, fun ρ hρ => ?_⟩
  constructor
  · intro hcovers node hnode hround
    obtain ⟨p, v, hp, hv, hnot⟩ := hround.not_covered
    exact hnot (hcovers node hnode p hp v hv)
  · intro hround node hnode p hp v hv
    exact contains_eval hρ (fun inner hinner => hround inner (Expr.nodes_subset hnode hinner)) hp hv

/-- The quotient of `x` and `y` times `y`, and the remainder. -/
def quotientAndRemainder : Expr :=
  let number := TypeSet.single .numeric
  let x := .var "x" number
  let y := .var "y" number
  .binary .numericAdd (.binary .numericMul (.binary .numericDiv x y number) y number)
    (.binary .numericMod x y number) number

theorem integer_values_covered_of_quotient :
    let S := Arithmetic.truncating.semantics (.undefined Int)
    let env : Environment SignParity :=
      .entries (.ofList [("x", ⟨.plus, .odd⟩), ("y", ⟨.plus, .even⟩)])
    let ρ : Store (Value Int) := fun x => .number (if x = "x" then 7 else 2)
    env.Describes Contains ρ ∧
      (∀ node ∈ quotientAndRemainder.nodes,
        ¬ RoundsAgainstSign (.undefined Int) env ρ ⟨"test"⟩ node) ∧
      env.eval quotientAndRemainder ⟨"test"⟩ = .ok ⟨.plus, .top⟩ ∧
      ∀ v, S.Evaluates ρ quotientAndRemainder v → Contains ⟨.plus, .top⟩ v := by
  intro S env ρ
  have hρ : env.Describes Contains ρ := by
    refine Pointwise.describes_ofList fun e he => ?_
    rcases List.mem_pair.mp he with rfl | rfl
    · exact ⟨show (0 : Int) < 7 by decide, rfl⟩
    · exact ⟨show (0 : Int) < 2 by decide, rfl⟩
  have hround : ∀ node ∈ quotientAndRemainder.nodes,
      ¬ RoundsAgainstSign (.undefined Int) env ρ ⟨"test"⟩ node := by
    rintro node hnode ⟨left, right, types, a, b, p, rfl, ha, hb, -, hlt, -⟩
    -- the only division is that of `x` by `y`
    simp only [quotientAndRemainder, Expr.nodes, List.mem_cons, List.cons_append, List.nil_append,
      List.not_mem_nil, Expr.binary.injEq, reduceCtorEq, false_and, or_false, false_or, true_and]
      at hnode
    obtain ⟨rfl, rfl, rfl⟩ := hnode
    obtain rfl : a = 7 := Value.number.inj ha.var_inv
    obtain rfl : b = 2 := Value.number.inj hb.var_inv
    exact absurd hlt (by decide)
  have heval : env.eval quotientAndRemainder ⟨"test"⟩ = .ok ⟨.plus, .top⟩ := rfl
  obtain ⟨-, hiff⟩ := integer_values_covered_iff (.undefined Int) env quotientAndRemainder ⟨"test"⟩
  exact ⟨hρ, hround, heval, (hiff ρ hρ).mpr hround _ (Expr.mem_nodes_self _) _ heval⟩

/-- A half is found to be positive, and is rounded to zero. -/
theorem half_not_covered :
    let number := TypeSet.single .numeric
    let half : Expr :=
      .binary .numericDiv (.constant (.int 1) number) (.constant (.int 2) number) number
    let ρ : Store (Value Int) := fun _ => .number 0
    (Pointwise.top : Environment SignParity).Describes Contains ρ ∧
      Environment.eval (.top : Environment SignParity) half ⟨""⟩ = .ok ⟨.plus, .top⟩ ∧
      (Arithmetic.truncating.semantics (.undefined Int)).Evaluates ρ half (.number 0) ∧
      ¬ Contains ⟨.plus, .top⟩ (.number 0) := by
  intro number half ρ
  have hρ : (Pointwise.top : Environment SignParity).Describes Contains ρ := nofun
  have heval : Environment.eval (.top : Environment SignParity) half ⟨""⟩ = .ok ⟨.plus, .top⟩ := by
    decide +kernel
  refine ⟨hρ, heval, ?_, fun h => lt_irrefl (0 : Int) h.1⟩
  exact .binary (.constant (TypeSet.admits_single .numeric))
    (.constant (TypeSet.admits_single .numeric)) rfl (TypeSet.admits_single .numeric)

end SignParity

end AbstractDomains
