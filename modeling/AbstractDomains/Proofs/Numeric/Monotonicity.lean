import AbstractDomains.Proofs.Monotonicity
import AbstractDomains.Proofs.Numeric.Integers

/-!
# Evaluation is monotone

The tables of signs and of parities are monotone in each operand, also where a divisor that is zero
moves to one that may be zero. So a smaller environment gives a smaller value, in the domains of
signs, of parities and of both. Pairs are compared in each component here: the order that pairs
decide compares parities first and has nothing to say of signs then.

Results:
* `Sign.add_monotone`, `Sign.mul_monotone`, `Sign.div_monotone`, `Sign.rem_monotone`,
  `Parity.add_monotone`, `Parity.mul_monotone`: the tables.
* `Environment.eval_monotone`: all expressions in all three domains.
-/

namespace AbstractDomains

open ValueDomain

/-- What is to hold of every member of a finite enumeration can be tried on each. -/
instance Keyword.decidableForall {α : Type} [DecidableEq α] [Keyword α] (p : α → Prop)
    [DecidablePred p] : Decidable (∀ a, p a) :=
  decidable_of_iff (∀ a ∈ Keyword.all (α := α), p a)
    ⟨fun h a => h a (Keyword.mem_all a), fun h a _ => h a⟩

namespace Sign

variable {s s' t t' : Sign}

theorem negate_monotone (hs : s.below s' = true) : s.negate.below s'.negate = true := by
  revert s s'
  decide

theorem add_monotone (hs : s.below s' = true) (ht : t.below t' = true) :
    (s.add t).below (s'.add t') = true := by
  revert s s' t t'
  decide +kernel

theorem sub_monotone (hs : s.below s' = true) (ht : t.below t' = true) :
    (s.sub t).below (s'.sub t') = true :=
  add_monotone hs (negate_monotone ht)

theorem mul_monotone (hs : s.below s' = true) (ht : t.below t' = true) :
    (s.mul t).below (s'.mul t') = true := by
  revert s s' t t'
  decide +kernel

theorem div_monotone (hs : s.below s' = true) (ht : t.below t' = true) :
    (s.div t).below (s'.div t') = true := by
  revert s s' t t'
  decide +kernel

theorem rem_monotone (hs : s.below s' = true) (ht : t.below t' = true) :
    (s.rem t).below (s'.rem t') = true := by
  revert s s' t t'
  decide +kernel

theorem evalUnary_monotone (op : UnaryOp) (hs : s.below s' = true) :
    (evalUnary op s).below (evalUnary op s') = true := by
  cases op with
  | numericNeg => exact negate_monotone hs
  | _ => rfl

theorem evalBinary_monotone (op : BinaryOp) (hs : s.below s' = true) (ht : t.below t' = true) :
    (evalBinary op s t).below (evalBinary op s' t') = true := by
  cases op with
  | numericAdd => exact add_monotone hs ht
  | numericSub => exact sub_monotone hs ht
  | numericMul => exact mul_monotone hs ht
  | numericDiv => exact div_monotone hs ht
  | numericMod => exact rem_monotone hs ht
  | _ => rfl

/-- **The hooks of signs are monotone.** -/
theorem hooksRelated : HooksRelated (Below : Sign → Sign → Prop) := by
  have hiff : ∀ {s t : Sign}, Below s t ↔ s.below t = true := leqDecides.below_iff trivial trivial
  refine .of_monotone latticeOn.toOrderOn totalDomain (fun op s s' _ hs => ?_)
    (fun op s s' t t' _ hs ht => ?_) (fun _ _ _ _ _ _ _ _ _ _ _ => related_ok (below_self _))
  · exact related_ok (hiff.mpr (evalUnary_monotone op (hiff.mp hs)))
  · exact related_ok (hiff.mpr (evalBinary_monotone op (hiff.mp hs) (hiff.mp ht)))

end Sign

namespace Parity

variable {p p' q q' : Parity}

theorem add_monotone (hp : p.IsBelow p') (hq : q.IsBelow q') : (p.add q).IsBelow (p'.add q') := by
  revert p p' q q'
  decide

theorem mul_monotone (hp : p.IsBelow p') (hq : q.IsBelow q') : (p.mul q).IsBelow (p'.mul q') := by
  revert p p' q q'
  decide

theorem evalUnary_monotone (op : UnaryOp) (hp : p.IsBelow p') :
    (evalUnary op p).IsBelow (evalUnary op p') := by
  cases op with
  | numericNeg => exact hp
  | _ => exact .inl rfl

theorem evalBinary_monotone (op : BinaryOp) (hp : p.IsBelow p') (hq : q.IsBelow q') :
    (evalBinary op p q).IsBelow (evalBinary op p' q') := by
  cases op with
  | numericAdd | numericSub => exact add_monotone hp hq
  | numericMul => exact mul_monotone hp hq
  | _ => exact .inl rfl

/-- **The hooks of parities are monotone.** -/
theorem hooksRelated : HooksRelated (Below : Parity → Parity → Prop) := by
  have hiff : ∀ {p q : Parity}, Below p q ↔ p.IsBelow q := leqDecides.below_iff trivial trivial
  refine .of_monotone latticeOn.toOrderOn totalDomain (fun op p p' _ hp => ?_)
    (fun op p p' q q' _ hp hq => ?_) (fun _ _ _ _ _ _ _ _ _ _ _ => related_ok (below_self _))
  · exact related_ok (hiff.mpr (evalUnary_monotone op (hiff.mp hp)))
  · exact related_ok (hiff.mpr (evalBinary_monotone op (hiff.mp hp) (hiff.mp hq)))

end Parity

/-- **The hooks of pairs are monotone** in both components. -/
theorem SignParity.hooksRelated :
    HooksRelated (ReducedProduct.ComponentsBelow (r := SignParity.reduction)) :=
  ReducedProduct.componentsBelow_hooksRelated Sign.latticeOn Parity.latticeOn Sign.hooksRelated
    Parity.hooksRelated reduction_interior

/-! ## Environments -/

namespace Environment

/-- Evaluation is monotone in the order that a lattice of values decides. -/
theorem eval_below {α : Type} [DecidableEq α] [ValueDomain α] {P : α → Prop} {R : α → α → Prop}
    (hD : DomainOn P R) (hα : LatticeOn P) (hR : HooksRelated (Below : α → α → Prop))
    (hunbound : ∀ id point, evalVariable id point = .ok (top : α)) {a b : Environment α}
    (ha : a.Reached P) (hb : b.Reached P) (hab : Below a b) (e : Expr) (point : ProgramPoint) :
    Related Below (a.eval e point) (b.eval e point) := by
  have hcanonical := hb.canonical hD
  have hdecides : LeqDecides (Pointwise.Canonical P : Environment α → Prop)
      (Pointwise.ReadsBelow Below) := Pointwise.leqDecides hα.toOrderOn hα.leqDecides
  have hreads : Pointwise.ReadsBelow Below a b :=
    (hdecides.below_iff (ha.canonical hD) hcanonical).mp hab
  exact eval_related hR hα.toOrderOn hunbound hcanonical hreads e

/-- **Evaluation is monotone in the environment.** If one environment is below another one, every
expression has a value in both, and the first value is below the second. The order is the one that
is decided for signs and for parities, and for pairs of both the order of their components: no
execution gets to the first environment, or every variable reads below in both components. -/
theorem eval_monotone (e : Expr) (point : ProgramPoint) :
    (∀ a b : Environment Sign, a.Reached (fun _ => True) → b.Reached (fun _ => True) →
      Below a b → Related Below (a.eval e point) (b.eval e point)) ∧
    (∀ a b : Environment Parity, a.Reached (fun _ => True) → b.Reached (fun _ => True) →
      Below a b → Related Below (a.eval e point) (b.eval e point)) ∧
    ∀ a b : Environment SignParity, a.Reached SignParity.Built → b.Reached SignParity.Built →
      Pointwise.ReadsBelow ReducedProduct.ComponentsBelow a b →
      Related ReducedProduct.ComponentsBelow (a.eval e point) (b.eval e point) := by
  refine ⟨fun a b ha hb hab => ?_, fun a b ha hb hab => ?_, fun a b _ hb hab => ?_⟩
  · exact eval_below Sign.domainOn Sign.latticeOn Sign.hooksRelated (fun _ _ => rfl) ha hb hab e
      point
  · exact eval_below Parity.domainOn Parity.latticeOn Parity.hooksRelated (fun _ _ => rfl) ha hb
      hab e point
  · exact eval_related SignParity.hooksRelated SignParity.domainOn.toOrderOn (fun _ _ => rfl)
      (hb.canonical SignParity.domainOn) hab e

/-- A number divided by its double. -/
def numberByDouble : Expr :=
  let number := TypeSet.single .numeric
  .binary .numericDiv (.var "x" number)
    (.binary .numericAdd (.var "x" number) (.var "x" number) number) number

/-- The quotient is undefined for zero, and has a value again if the number may be zero. -/
theorem eval_monotone_of_double :
    let a : Environment Sign := Pointwise.set .top "x" .zero
    let b : Environment Sign := Pointwise.set .top "x" .zeroPlus
    let c : Environment Parity := Pointwise.set .top "x" .odd
    let a' : Environment SignParity := Pointwise.set .top "x" ⟨.plus, .odd⟩
    let b' : Environment SignParity := Pointwise.set .top "x" ⟨.zeroPlus, .top⟩
    a.eval numberByDouble ⟨"test"⟩ = .ok .bottom ∧
      b.eval numberByDouble ⟨"test"⟩ = .ok .zeroPlus ∧
      a'.eval numberByDouble ⟨"test"⟩ = .ok ⟨.plus, .top⟩ ∧
      b'.eval numberByDouble ⟨"test"⟩ = .ok ⟨.zeroPlus, .top⟩ ∧
      Related Below (a.eval numberByDouble ⟨"test"⟩) (b.eval numberByDouble ⟨"test"⟩) ∧
      Related Below (c.eval numberByDouble ⟨"test"⟩)
        (Environment.eval .top numberByDouble ⟨"test"⟩) ∧
      Related ReducedProduct.ComponentsBelow (a'.eval numberByDouble ⟨"test"⟩)
        (b'.eval numberByDouble ⟨"test"⟩) := by
  intro a b c a' b'
  obtain ⟨hsign, hparity, hpair⟩ := eval_monotone numberByDouble ⟨"test"⟩
  have ha' : a'.Reached SignParity.Built :=
    .set "x" .top (.pair (a := .plus) (b := .odd) trivial trivial rfl)
  have hb' : b'.Reached SignParity.Built :=
    .set "x" .top (.pair (a := .zeroPlus) (b := .top) trivial trivial rfl)
  have hreads : Pointwise.ReadsBelow ReducedProduct.ComponentsBelow a' b' := by
    refine .inr ⟨Pointwise.entries_ne_bottom _, fun id => ?_⟩
    by_cases hid : id = "x"
    · subst hid
      exact ⟨rfl, rfl⟩
    · rw [Pointwise.read_set_of_ne hid rfl, Pointwise.read_set_of_ne hid rfl]
      exact ⟨rfl, rfl⟩
  refine ⟨rfl, rfl, rfl, rfl, ?_, ?_, hpair a' b' ha' hb' hreads⟩
  · exact hsign a b (.set "x" .top trivial) (.set "x" .top trivial) rfl
  · exact hparity c .top (.set "x" .top trivial) .top rfl

end Environment

end AbstractDomains
