import AbstractDomains.Expr.Basic

/-!
# The order of expressions

Expressions compare by their kind first (in order of declaration, then field by field from left to
right) and by their candidate types second. Strings compare character by character.

Results:
* `Composes`: what two comparisons in a row allow for the third; it passes through `then`
  (`Composes.andThen`) and through a ranking of kinds (`Composes.of_rank`).
* `Constant` and `Expr` are linearly ordered, and comparing equal means being equal.
-/

namespace AbstractDomains

/-! ## Chains of comparisons -/

/-- `c` may compare the outer two of three things whose neighbours compare as `a` and `b`. -/
def Composes (a b c : Ordering) : Prop :=
  (a = .eq → c = b) ∧ (b = .eq → c = a) ∧ (a = b → c = a)

namespace Composes

theorem andThen {a b c a' b' c' : Ordering} (h : Composes a b c) (h' : Composes a' b' c') :
    Composes (a.then a') (b.then b') (c.then c') := by
  obtain ⟨h₁, h₂, h₃⟩ := h
  obtain ⟨h₁', h₂', h₃'⟩ := h'
  cases a <;> cases b <;> cases a' <;> cases b' <;> simp_all [Composes]

theorem isLE {a b c : Ordering} (h : Composes a b c) (ha : a.isLE) (hb : b.isLE) : c.isLE := by
  cases a <;> cases b <;> simp_all [Composes]

theorem compare {α : Type} [Ord α] [Std.TransOrd α] (a b c : α) :
    Composes (compare a b) (compare b c) (compare a c) := by
  refine ⟨fun h => Std.TransCmp.congr_left h, fun h => (Std.TransCmp.congr_right h).symm,
    fun h => ?_⟩
  cases hab : Ord.compare a b with
  | lt => exact Std.TransCmp.lt_trans hab (h ▸ hab)
  | eq => exact Std.TransCmp.eq_trans hab (h ▸ hab)
  | gt => exact Std.TransCmp.gt_trans hab (h ▸ hab)

/-- Where things of different rank compare as their ranks, only equal ranks are left to check. -/
theorem of_rank {α : Type} {cmp : α → α → Ordering} (rank : α → Nat)
    (hcmp : ∀ a b, rank a ≠ rank b → cmp a b = Ord.compare (rank a) (rank b)) {a b c : α}
    (same : rank a = rank b → rank b = rank c → Composes (cmp a b) (cmp b c) (cmp a c)) :
    Composes (cmp a b) (cmp b c) (cmp a c) := by
  by_cases hab : rank a = rank b
  · by_cases hbc : rank b = rank c
    · exact same hab hbc
    · rw [hcmp b c hbc, hcmp a c (hab ▸ hbc), hab]
      exact ⟨fun _ => rfl, fun h => absurd (Nat.compare_eq_eq.1 h) hbc, fun h => h.symm⟩
  · by_cases hbc : rank b = rank c
    · rw [hcmp a b hab, hcmp a c (hbc ▸ hab), hbc]
      exact ⟨fun h => absurd (Nat.compare_eq_eq.1 h) (hbc ▸ hab), fun _ => rfl, fun _ => rfl⟩
    · by_cases hac : rank a = rank c
      · rw [hcmp a b hab, hcmp b c hbc, hac]
        refine ⟨fun h => absurd (Nat.compare_eq_eq.1 h) (hac ▸ hab),
          fun h => absurd (Nat.compare_eq_eq.1 h) hbc, fun h => ?_⟩
        have := Nat.compare_swap (rank b) (rank c)
        cases hbc' : Ord.compare (rank b) (rank c) <;> simp_all
      · rw [hcmp a b hab, hcmp b c hbc, hcmp a c hac]
        exact compare _ _ _

end Composes

/-! ## Constants -/

namespace Constant

/-- The position of the kind of constant. -/
def rank : Constant → Nat
  | int _ => 0
  | bool _ => 1
  | str _ => 2
  | null => 3

/-- The number, if it is one. -/
def int? : Constant → Option Int64
  | int value => some value
  | _ => none

/-- The truth value, if it is one. -/
def bool? : Constant → Option Bool
  | bool value => some value
  | _ => none

/-- The string, if it is one. -/
def str? : Constant → Option String
  | str value => some value
  | _ => none

/-- Kind first, value second. -/
protected def compare : Constant → Constant → Ordering :=
  compareLex (compareOn rank)
    (compareLex (compareOn int?) (compareLex (compareOn bool?) (compareOn str?)))

instance : Ord Constant := ⟨Constant.compare⟩

instance : Std.TransOrd Constant :=
  inferInstanceAs (Std.TransCmp (compareLex (compareOn rank)
    (compareLex (compareOn int?) (compareLex (compareOn bool?) (compareOn str?)))))

instance : Std.LawfulEqOrd Constant where
  compare_self {a} := by
    change a.compare a = .eq
    simp [Constant.compare, compareLex, compareOn]
  eq_of_compare {a b} h := by
    change a.compare b = .eq at h
    simp only [Constant.compare, compareLex, compareOn, Ordering.then_eq_eq,
      Std.LawfulEqOrd.compare_eq_iff_eq] at h
    cases a <;> cases b <;> simp_all [rank, int?, bool?, str?]

end Constant

/-! ## Expressions -/

namespace Expr

/-- The position of the kind of expression. -/
def rank : Expr → Nat
  | constant .. => 0
  | .var .. => 1
  | unary .. => 2
  | binary .. => 3
  | ternary .. => 4
  | pushAny .. => 5
  | skip .. => 6

/-- Kind and fields first, candidate types second. -/
protected def compare : Expr → Expr → Ordering
  | constant a s, constant b t => (Ord.compare a b).then (Ord.compare s t)
  | .var a s, .var b t => (Ord.compare a b).then (Ord.compare s t)
  | unary o a s, unary p b t =>
    ((Ord.compare o p).then (a.compare b)).then (Ord.compare s t)
  | binary o a₁ a₂ s, binary p b₁ b₂ t =>
    ((Ord.compare o p).then ((a₁.compare b₁).then (a₂.compare b₂))).then (Ord.compare s t)
  | ternary o a₁ a₂ a₃ s, ternary p b₁ b₂ b₃ t =>
    ((Ord.compare o p).then
      ((a₁.compare b₁).then ((a₂.compare b₂).then (a₃.compare b₃)))).then (Ord.compare s t)
  | pushAny s, pushAny t => Ord.compare s t
  | skip s, skip t => Ord.compare s t
  | a, b => Ord.compare a.rank b.rank

instance : Ord Expr := ⟨Expr.compare⟩

theorem compare_of_rank_ne (a b : Expr) (h : a.rank ≠ b.rank) :
    a.compare b = Ord.compare a.rank b.rank := by
  cases a <;> cases b <;> first | rfl | exact absurd rfl h

theorem compare_swap (a b : Expr) : a.compare b = (b.compare a).swap := by
  induction a generalizing b with
  | unary o a s ih =>
    cases b with
    | unary p b t =>
      simp only [Expr.compare, Ordering.swap_then, ← ih, ← Std.OrientedCmp.eq_swap]
    | _ => rfl
  | binary o a₁ a₂ s ih₁ ih₂ =>
    cases b with
    | binary p b₁ b₂ t =>
      simp only [Expr.compare, Ordering.swap_then, ← ih₁, ← ih₂, ← Std.OrientedCmp.eq_swap]
    | _ => rfl
  | ternary o a₁ a₂ a₃ s ih₁ ih₂ ih₃ =>
    cases b with
    | ternary p b₁ b₂ b₃ t =>
      simp only [Expr.compare, Ordering.swap_then, ← ih₁, ← ih₂, ← ih₃,
        ← Std.OrientedCmp.eq_swap]
    | _ => rfl
  | _ =>
    cases b <;> first
      | rfl
      | simp only [Expr.compare, Ordering.swap_then, ← Std.OrientedCmp.eq_swap]

theorem composes (a b c : Expr) : Composes (a.compare b) (b.compare c) (a.compare c) := by
  induction a generalizing b c with
  | constant _ _ | var _ _ =>
    refine .of_rank rank compare_of_rank_ne fun hab hbc => ?_
    cases b <;> cases hab
    cases c <;> cases hbc
    exact .andThen (.compare _ _ _) (.compare _ _ _)
  | pushAny _ | skip _ =>
    refine .of_rank rank compare_of_rank_ne fun hab hbc => ?_
    cases b <;> cases hab
    cases c <;> cases hbc
    exact .compare _ _ _
  | unary _ _ _ ih =>
    refine .of_rank rank compare_of_rank_ne fun hab hbc => ?_
    cases b <;> cases hab
    cases c <;> cases hbc
    exact .andThen (.andThen (.compare _ _ _) (ih _ _)) (.compare _ _ _)
  | binary _ _ _ _ ih₁ ih₂ =>
    refine .of_rank rank compare_of_rank_ne fun hab hbc => ?_
    cases b <;> cases hab
    cases c <;> cases hbc
    exact .andThen (.andThen (.compare _ _ _) (.andThen (ih₁ _ _) (ih₂ _ _))) (.compare _ _ _)
  | ternary _ _ _ _ _ ih₁ ih₂ ih₃ =>
    refine .of_rank rank compare_of_rank_ne fun hab hbc => ?_
    cases b <;> cases hab
    cases c <;> cases hbc
    exact .andThen (.andThen (.compare _ _ _) (.andThen (ih₁ _ _) (.andThen (ih₂ _ _) (ih₃ _ _))))
      (.compare _ _ _)

theorem compare_self (a : Expr) : a.compare a = .eq := by
  induction a <;> simp_all [Expr.compare]

/-- Expressions of different kinds do not compare as equal. -/
theorem rank_eq_of_compare {a b : Expr} (h : a.compare b = .eq) : a.rank = b.rank := by
  refine Decidable.byContradiction fun hrank => ?_
  rw [compare_of_rank_ne a b hrank] at h
  exact hrank (Nat.compare_eq_eq.mp h)

theorem eq_of_compare {a b : Expr} (h : a.compare b = .eq) : a = b := by
  induction a generalizing b with
  | constant value types | var id types =>
    cases b <;> cases rank_eq_of_compare h
    simp only [Expr.compare, Ordering.then_eq_eq, Std.LawfulEqOrd.compare_eq_iff_eq] at h
    obtain ⟨rfl, rfl⟩ := h
    rfl
  | pushAny types | skip types =>
    cases b <;> cases rank_eq_of_compare h
    simp only [Expr.compare, Std.LawfulEqOrd.compare_eq_iff_eq] at h
    rw [h]
  | unary op arg types ih =>
    cases b <;> cases rank_eq_of_compare h
    simp only [Expr.compare, Ordering.then_eq_eq, Std.LawfulEqOrd.compare_eq_iff_eq] at h
    obtain ⟨⟨rfl, harg⟩, rfl⟩ := h
    rw [ih harg]
  | binary op left right types ihl ihr =>
    cases b <;> cases rank_eq_of_compare h
    simp only [Expr.compare, Ordering.then_eq_eq, Std.LawfulEqOrd.compare_eq_iff_eq] at h
    obtain ⟨⟨rfl, hleft, hright⟩, rfl⟩ := h
    rw [ihl hleft, ihr hright]
  | ternary op left middle right types ihl ihm ihr =>
    cases b <;> cases rank_eq_of_compare h
    simp only [Expr.compare, Ordering.then_eq_eq, Std.LawfulEqOrd.compare_eq_iff_eq] at h
    obtain ⟨⟨rfl, hleft, hmiddle, hright⟩, rfl⟩ := h
    rw [ihl hleft, ihm hmiddle, ihr hright]

instance : Std.TransOrd Expr where
  eq_swap := compare_swap _ _
  isLE_trans h h' := (composes _ _ _).isLE h h'

instance : Std.LawfulEqOrd Expr where
  compare_self := compare_self _
  eq_of_compare := eq_of_compare

end Expr

end AbstractDomains
