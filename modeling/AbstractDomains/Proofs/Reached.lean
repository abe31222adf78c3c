import AbstractDomains.Numeric.SignParity
import AbstractDomains.Proofs.Evaluation
import AbstractDomains.Proofs.PointwiseSet
import AbstractDomains.Proofs.ProductLattice

/-!
# Environments that can be reached

An analysis starts from top or bottom and applies operations. The environments it meets store
neither top nor bottom: a variable that is set to top is forgotten, one that is set to bottom leaves
no state, and joins and meets are canonical again. That takes a domain whose hooks and operations
stay among the values it is about (`DomainOn`), which the domains of signs, of parities and of both
do.

Results:
* `eval_mem`: the value of an expression is among those of the domain.
* `Environment.Reached.canonical`: what is reached is canonical.
* `Sign.domainOn`, `Parity.domainOn`, `SignParity.domainOn`.
-/

namespace AbstractDomains

open ValueDomain

section Hooks

variable {α : Type} [DecidableEq α] [ValueDomain α] {P : α → Prop} {R : α → α → Prop}

/-- The hooks find values in `P`, as long as those of the operands are. -/
structure HooksWithin (P : α → Prop) : Prop where
  null : ∀ {point a}, evalNull point = .ok a → P a
  nonNull : ∀ {value point a}, evalNonNull value point = .ok a → P a
  unbound : ∀ {id point a}, evalVariable id point = .ok a → P a
  pushAny : ∀ {types point a}, evalPushAny types point = .ok a → P a
  skip : ∀ {point a}, evalSkip point = .ok a → P a
  unary : ∀ {op a point r}, P a → evalUnary op a point = .ok r → P r
  binary : ∀ {op a b point r}, P a → P b → evalBinary op a b point = .ok r → P r
  ternary : ∀ {op a b c point r}, P a → P b → P c → evalTernary op a b c point = .ok r → P r

/-- A domain on the values in `P`: they are closed under the operations and the hooks, joins and
meets are bounds in the order `R`, and widening is joining. -/
structure DomainOn (P : α → Prop) (R : α → α → Prop) : Prop extends
    LatticeOrder P R, HooksWithin P where
  widen_eq_join : (widen : α → α → Analysis α) = join

theorem HooksWithin.all : HooksWithin fun _ : α => True := by
  constructor <;> intros <;> trivial

theorem onDefined_mem {x : Analysis α} {f : α → Analysis α} {b : α} (h : onDefined x f = .ok b)
    (hx : ∀ {a}, x = .ok a → P a) (hf : ∀ {a}, P a → f a = .ok b → P b) : P b := by
  obtain ⟨a, ha, ⟨-, rfl⟩ | ⟨-, h⟩⟩ := onDefined_inv h
  · exact hx ha
  · exact hf (hx ha) h

/-- **The value of an expression is in `P`** if those of the variables are. -/
theorem eval_mem (hP : HooksWithin P) (hbottom : P bottom) {lookup : Identifier → Option α}
    (hl : ∀ id a, lookup id = some a → P a) {point : ProgramPoint} {e : Expr} {a : α}
    (h : eval lookup point e = .ok a) : P a := by
  induction e generalizing a with
  | constant value types =>
    cases value with
    | null => exact hP.null h
    | _ => exact hP.nonNull h
  | var id types =>
    rw [eval] at h
    unfold valueOf at h
    split at h
    · rename_i b hb
      exact Except.ok.inj h ▸ hl id b hb
    · exact hP.unbound h
  | pushAny types => exact hP.pushAny h
  | skip types => exact hP.skip h
  | unary op arg types ih =>
    by_cases hfit : (Expr.unary op arg types).operandsFit = true
    · rw [eval_unary hfit] at h
      exact onDefined_mem h ih hP.unary
    · exact Except.ok.inj ((eval_of_misfit hfit).symm.trans h) ▸ hbottom
  | binary op left right types ihl ihr =>
    by_cases hfit : (Expr.binary op left right types).operandsFit = true
    · rw [eval_binary hfit] at h
      exact onDefined_mem h ihl fun hl h => onDefined_mem h ihr fun hr => hP.binary hl hr
    · exact Except.ok.inj ((eval_of_misfit hfit).symm.trans h) ▸ hbottom
  | ternary op left middle right types ihl ihm ihr =>
    by_cases hfit : (Expr.ternary op left middle right types).operandsFit = true
    · rw [eval_ternary hfit] at h
      exact onDefined_mem h ihl fun hl h => onDefined_mem h ihm fun hm h =>
        onDefined_mem h ihr fun hr => hP.ternary hl hm hr
    · exact Except.ok.inj ((eval_of_misfit hfit).symm.trans h) ▸ hbottom

end Hooks

/-! ## Canonical maps stay canonical -/

namespace Pointwise

variable {κ α : Type} [Ord κ] [DecidableEq κ] [Std.TransOrd κ] [DecidableEq α] [AbstractLattice α]
  {P : α → Prop} {R : α → α → Prop} {s : Pointwise κ α}

theorem widen_eq_join (h : (widen : α → α → Analysis α) = join) :
    (widen : Pointwise κ α → Pointwise κ α → Analysis (Pointwise κ α)) = join := by
  show AbstractLattice.upward (combine widen) = AbstractLattice.upward (combine join)
  rw [h]

variable [Std.LawfulEqOrd κ]

theorem Canonical.widen (hR : LatticeOrder P R)
    (hwiden : (AbstractDomains.widen : α → α → Analysis α) = join) {t u : Pointwise κ α}
    (hs : Canonical P s) (ht : Canonical P t) (h : AbstractDomains.widen s t = .ok u) :
    Canonical P u := by
  rw [widen_eq_join hwiden] at h
  exact ((latticeOrder hR).isJoin_of_join hs ht h).mem

end Pointwise

namespace Environment

variable {α : Type} [DecidableEq α] [ValueDomain α] {P : α → Prop} {R : α → α → Prop}
  {env env' : Environment α} {point : ProgramPoint} {e : Expr} {a : α}

theorem eval_mem (hD : DomainOn P R) (henv : Pointwise.Canonical P env)
    (h : env.eval e point = .ok a) : P a := by
  cases env with
  | bottom => exact Except.ok.inj h ▸ hD.bottom_mem
  | entries m =>
    have hread : ∀ id b, m.get? id = some b → P b := fun id b hb => (henv id b hb).1
    exact AbstractDomains.eval_mem hD.toHooksWithin hD.bottom_mem hread h

theorem canonical_assign (hD : DomainOn P R) {id : Identifier} (henv : Pointwise.Canonical P env)
    (h : env.assign id e point = .ok env') : Pointwise.Canonical P env' := by
  obtain ⟨a, ha, h⟩ := Analysis.bind_eq_ok.mp h
  obtain rfl := Analysis.pure_eq_ok.mp h
  exact henv.set hD.toOrderOn (eval_mem hD henv ha)

theorem canonical_assume (hD : DomainOn P R) (henv : Pointwise.Canonical P env)
    (h : env.assume e point = .ok env') : Pointwise.Canonical P env' := by
  rcases assume_inv h with
    ⟨-, rfl⟩ | ⟨-, ⟨-, rfl⟩ | ⟨id, operand, other, v, w, c, -, hv, hw, hc, rfl⟩⟩
  · trivial
  · exact henv
  · have hmeet := hD.isMeet_of_meet (eval_mem hD henv hv) (eval_mem hD henv hw) hc
    exact henv.set hD.toOrderOn hmeet.mem

/-- The environments that are reached from top and bottom by the operations, where variables are set
to values in `P`. -/
inductive Reached (P : α → Prop) : Environment α → Prop
  | top : Reached P .top
  | bottom : Reached P .bottom
  | set {env : Environment α} {a : α} (id : Identifier) :
    Reached P env → P a → Reached P (Pointwise.set env id a)
  | forget {env : Environment α} (id : Identifier) :
    Reached P env → Reached P (Pointwise.forget env id)
  | assign {env env' : Environment α} {id : Identifier} {e : Expr} {point : ProgramPoint} :
    Reached P env → env.assign id e point = .ok env' → Reached P env'
  | assume {env env' : Environment α} {e : Expr} {point : ProgramPoint} :
    Reached P env → env.assume e point = .ok env' → Reached P env'
  | join {env₁ env₂ env : Environment α} :
    Reached P env₁ → Reached P env₂ → AbstractDomains.join env₁ env₂ = .ok env → Reached P env
  | meet {env₁ env₂ env : Environment α} :
    Reached P env₁ → Reached P env₂ → AbstractDomains.meet env₁ env₂ = .ok env → Reached P env
  | widen {env₁ env₂ env : Environment α} :
    Reached P env₁ → Reached P env₂ → AbstractDomains.widen env₁ env₂ = .ok env → Reached P env
  | narrow {env₁ env₂ env : Environment α} :
    Reached P env₁ → Reached P env₂ → AbstractDomains.narrow env₁ env₂ = .ok env → Reached P env

/-- **Environments that can be reached are canonical.** -/
theorem Reached.canonical (hD : DomainOn P R) (h : Reached P env) : Pointwise.Canonical P env := by
  have hlattice : LatticeOrder (Pointwise.Canonical P : Environment α → Prop)
      (Pointwise.ReadsBelow R) := Pointwise.latticeOrder hD.toLatticeOrder
  induction h with
  | top => exact hlattice.top_mem
  | bottom => exact hlattice.bottom_mem
  | set id _ ha ih => exact ih.set hD.toOrderOn ha
  | forget id _ ih => exact ih.forget
  | assign _ h ih => exact canonical_assign hD ih h
  | assume _ h ih => exact canonical_assume hD ih h
  | join _ _ h ih₁ ih₂ => exact (hlattice.isJoin_of_join ih₁ ih₂ h).mem
  | widen _ _ h ih₁ ih₂ => exact ih₁.widen hD.toLatticeOrder hD.widen_eq_join ih₂ h
  | meet _ _ h ih₁ ih₂ | narrow _ _ h ih₁ ih₂ => exact (hlattice.isMeet_of_meet ih₁ ih₂ h).mem

end Environment

/-! ## The domains -/

theorem Sign.domainOn : DomainOn (fun _ : Sign => True) fun s t => s.below t = true where
  toLatticeOrder := latticeOrder
  toHooksWithin := .all
  widen_eq_join := rfl

theorem Parity.domainOn : DomainOn (fun _ : Parity => True) Parity.IsBelow where
  toLatticeOrder := latticeOrder
  toHooksWithin := .all
  widen_eq_join := rfl

namespace ReducedProduct

variable {α β : Type} [DecidableEq α] [DecidableEq β] [ValueDomain α] [ValueDomain β] [Describe α]
  [Describe β] {C : α → Prop} {D : β → Prop} {r : Reduction α β}

theorem mem_both (hα : LatticeOn C) (hβ : LatticeOn D) (hr : r.Interior C D) {x : Analysis α}
    {y : Analysis β} {p : ReducedProduct r} (h : both x y = .ok p) (hx : ∀ {a}, x = .ok a → C a)
    (hy : ∀ {b}, y = .ok b → D b) : ReducedOrTop C D p := by
  obtain ⟨a, b, ha, hb, h⟩ := both_inv h
  obtain ⟨q, hq, hred⟩ := exists_pair (r := r) hα hβ hr (hx ha) (hy hb)
  exact Except.ok.inj (hq.symm.trans h) ▸ .inr hred.mem

/-- Whatever a product finds is reduced. -/
theorem hooksWithin (hα : LatticeOn C) (hβ : LatticeOn D) (hr : r.Interior C D)
    (hC : HooksWithin C) (hD : HooksWithin D) :
    HooksWithin (ReducedOrTop C D : ReducedProduct r → Prop) where
  null h := mem_both hα hβ hr h hC.null hD.null
  nonNull h := mem_both hα hβ hr h hC.nonNull hD.nonNull
  unbound h := mem_both hα hβ hr h hC.unbound hD.unbound
  pushAny h := mem_both hα hβ hr h hC.pushAny hD.pushAny
  skip h := Except.ok.inj h ▸ .inr (reduced_bottom hα hβ)
  unary hp h := mem_both hα hβ hr h (hC.unary (hp.left_mem hα)) (hD.unary (hp.right_mem hβ))
  binary hp hq h := mem_both hα hβ hr h (hC.binary (hp.left_mem hα) (hq.left_mem hα))
    (hD.binary (hp.right_mem hβ) (hq.right_mem hβ))
  ternary hp hq hs h := mem_both hα hβ hr h
    (hC.ternary (hp.left_mem hα) (hq.left_mem hα) (hs.left_mem hα))
    (hD.ternary (hp.right_mem hβ) (hq.right_mem hβ) (hs.right_mem hβ))

end ReducedProduct

namespace SignParity

/-- The pairs that can be built. -/
abbrev Built : SignParity → Prop :=
  ReducedProduct.Built (fun _ => True) fun _ => True

variable {s s' : Sign} {p p' : Parity}

theorem sharpen_below : Below (sharpen s p).1 s ∧ Below (sharpen s p).2 p := by
  cases s <;> cases p <;> exact ⟨rfl, rfl⟩

theorem sharpen_of_ne_odd (h : p ≠ .odd) : sharpen s p = (s, p) := by
  cases p with
  | odd => exact absurd rfl h
  | bottom | even | top => cases s <;> rfl

theorem sharpen_odd_monotone (hs : s.below s' = true) (hne : s ≠ .bottom) :
    (sharpen s .odd).1 = .bottom ∨ (sharpen s .odd).1.below (sharpen s' .odd).1 = true ∧
      (sharpen s .odd).2 = (sharpen s' .odd).2 := by
  revert hs hne
  cases s <;> cases s' <;> decide

/-- Losing zero is monotone, as long as a sign is left. -/
theorem sharpen_monotone (hs : Below s s') (hp : Below p p') (hsne : s ≠ .bottom)
    (hpne : p ≠ .bottom) :
    (sharpen s p).1 = .bottom ∨ Below (sharpen s p).1 (sharpen s' p').1 ∧
      Below (sharpen s p).2 (sharpen s' p').2 := by
  by_cases hodd : p' = .odd
  · subst hodd
    rcases (Parity.leqDecides.below_iff trivial trivial).mp hp with rfl | rfl | h
    · have hs := (Sign.leqDecides.below_iff trivial trivial).mp hs
      rcases sharpen_odd_monotone hs hsne with hbottom | ⟨hleft, hright⟩
      · exact .inl hbottom
      · exact .inr ⟨(Sign.leqDecides.below_iff trivial trivial).mpr hleft, hright ▸ below_self _⟩
    · exact absurd rfl hpne
    · exact nomatch h
  · rw [sharpen_of_ne_odd hodd]
    exact .inr ⟨Sign.latticeOn.trans trivial trivial trivial sharpen_below.1 hs,
      Parity.latticeOn.trans trivial trivial trivial sharpen_below.2 hp⟩

theorem reduction_interior : reduction.Interior (fun _ => True) fun _ => True where
  exists_reduce _ _ := ⟨_, rfl, trivial, trivial⟩
  reductive _ _ hc := by
    obtain rfl := Except.ok.inj hc
    exact sharpen_below
  monotone _ _ _ _ hs hp hsne hpne hc hc' := by
    obtain rfl := Except.ok.inj hc
    obtain rfl := Except.ok.inj hc'
    exact (sharpen_monotone hs hp hsne hpne).imp_left .inl
  idempotent {s p c} _ _ hc := by
    obtain rfl := Except.ok.inj hc
    cases s <;> cases p <;> rfl

theorem built_iff {p : SignParity} :
    Built p ↔ ReducedProduct.ReducedOrTop (fun _ => True) (fun _ => True) p :=
  ReducedProduct.built_iff Sign.latticeOn Parity.latticeOn Sign.iteratesOn Parity.iteratesOn
    reduction_interior

theorem domainOn : DomainOn Built ReducedProduct.ComponentsBelow := by
  have hbuilt : Built = ReducedProduct.ReducedOrTop (fun _ => True) fun _ => True :=
    funext fun p => propext built_iff
  rw [hbuilt]
  exact {
    toLatticeOrder :=
      ReducedProduct.latticeOrder Sign.latticeOn Parity.latticeOn reduction_interior
    toHooksWithin := ReducedProduct.hooksWithin Sign.latticeOn Parity.latticeOn reduction_interior
      .all .all
    widen_eq_join := rfl }

end SignParity

end AbstractDomains
