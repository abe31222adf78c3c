import AbstractDomains.Proofs.Reached

/-!
# Evaluations side by side

An expression is evaluated twice: in two environments, or in two domains. What a relation `R` says
of the values of the variables it says of the two results as well, if the hooks preserve it
(`HooksRelated R`) and an evaluation that stops at bottom stays related to one that goes on. With
the order of a domain for `R`, evaluation is monotone; with an order between two domains, one is as
precise as the other.

Results:
* `eval_related`: related lookups give related values, for every expression.
* `Environment.eval_related`: evaluation in two environments one of which reads below the other.
* `ReducedProduct.hooksRelated`: the hooks of two products, from those of their components.
* `ReducedProduct.componentsBelow_hooksRelated`: a product is monotone if its components are.
-/

namespace AbstractDomains

open ValueDomain

section Outcomes

variable {α β : Type}

/-- Both analyses succeed, with related results. -/
def Related (R : α → β → Prop) (x : Analysis α) (y : Analysis β) : Prop :=
  ∃ a b, x = .ok a ∧ y = .ok b ∧ R a b

theorem related_ok {R : α → β → Prop} {a : α} {b : β} (h : R a b) : Related R (.ok a) (.ok b) :=
  ⟨a, b, rfl, rfl, h⟩

end Outcomes

section Hooks

variable {α β : Type} [DecidableEq α] [DecidableEq β] [ValueDomain α] [ValueDomain β]

/-- The hooks of two domains give related values for related operands. An evaluation that stops at
bottom is related to whatever the other one goes on to, and it is not the right one that stops
first. -/
structure HooksRelated (R : α → β → Prop) : Prop where
  bottom : R bottom bottom
  stop_left : ∀ {a b c d}, R a b → isBottom a = true → R c d → R a d
  stop_right : ∀ {a b}, R a b → isBottom b = true → isBottom a = true
  null : ∀ point, Related R (evalNull point) (evalNull point)
  nonNull : ∀ value point, Related R (evalNonNull value point) (evalNonNull value point)
  unbound : ∀ id point, Related R (evalVariable id point) (evalVariable id point)
  pushAny : ∀ types point, Related R (evalPushAny types point) (evalPushAny types point)
  skip : ∀ point, Related R (evalSkip point) (evalSkip point)
  unary : ∀ op {a b} point, R a b → Related R (evalUnary op a point) (evalUnary op b point)
  binary : ∀ op {a b a' b'} point, R a b → R a' b' →
    Related R (evalBinary op a a' point) (evalBinary op b b' point)
  ternary : ∀ op {a b a' b' a'' b''} point, R a b → R a' b' → R a'' b'' →
    Related R (evalTernary op a a' a'' point) (evalTernary op b b' b'' point)

variable {R : α → β → Prop}

theorem onDefined_of_bottom {a : α} (h : isBottom a = true) (f : α → Analysis α) :
    onDefined (.ok a) f = .ok a :=
  if_pos h

theorem onDefined_of_defined {a : α} (h : isBottom a = false) (f : α → Analysis α) :
    onDefined (.ok a) f = f a :=
  if_neg (Bool.eq_false_iff.mp h)

/-- What follows related operands is related, whether or not it stops at them. -/
theorem onDefined_related (hR : HooksRelated R) {x : Analysis α} {y : Analysis β}
    {f : α → Analysis α} {g : β → Analysis β} (hxy : Related R x y)
    (hfg : ∀ {a b}, R a b → Related R (f a) (g b)) : Related R (onDefined x f) (onDefined y g) := by
  obtain ⟨a, b, rfl, rfl, hab⟩ := hxy
  obtain ⟨c, d, hc, hd, hcd⟩ := hfg hab
  cases ha : isBottom a with
  | true =>
    rw [onDefined_of_bottom ha]
    cases hb : isBottom b with
    | true =>
      rw [onDefined_of_bottom hb]
      exact related_ok hab
    | false =>
      rw [onDefined_of_defined hb, hd]
      exact related_ok (hR.stop_left hab ha hcd)
  | false =>
    have hb : isBottom b = false :=
      Bool.eq_false_iff.mpr fun hb => Bool.eq_false_iff.mp ha (hR.stop_right hab hb)
    rw [onDefined_of_defined ha, onDefined_of_defined hb, hc, hd]
    exact related_ok hcd

/-- In one domain whose hooks never fail it is enough that operators are monotone: constants have
one value, which is related to itself. -/
theorem HooksRelated.of_monotone {R : α → α → Prop} (hR : OrderOn (fun _ => True) R)
    (hD : TotalDomain α)
    (hunary : ∀ op {a b} point, R a b → Related R (evalUnary op a point) (evalUnary op b point))
    (hbinary : ∀ op {a b a' b'} point, R a b → R a' b' →
      Related R (evalBinary op a a' point) (evalBinary op b b' point))
    (hternary : ∀ op {a b a' b' a'' b''} point, R a b → R a' b' → R a'' b'' →
      Related R (evalTernary op a a' a'' point) (evalTernary op b b' b'' point)) :
    HooksRelated R := by
  have hself : ∀ {x : Analysis α}, x.Succeeds → Related R x x := by
    rintro x ⟨a, rfl⟩
    exact related_ok (hR.refl trivial)
  refine {
    bottom := hR.refl trivial
    stop_left := fun {a b c d} _ ha _ => ?_
    stop_right := fun {a b} hab hb => ?_
    null := fun point => hself (hD.null point)
    nonNull := fun value point => hself (hD.nonNull value point)
    unbound := fun id point => hself (hD.unbound id point)
    pushAny := fun types point => hself (hD.pushAny types point)
    skip := fun point => hself (hD.skip point)
    unary := hunary
    binary := hbinary
    ternary := hternary }
  · rw [(hR.isBottom_iff trivial).mp ha]
    exact hR.bottom_le trivial
  · rw [(hR.isBottom_iff trivial).mp hb] at hab
    exact (hR.isBottom_iff trivial).mpr (hR.eq_bottom trivial hab)

variable {lookup : Identifier → Option α} {lookup' : Identifier → Option β} {point : ProgramPoint}

/-- **Related lookups give related values**, for every expression. -/
theorem eval_related (hR : HooksRelated R)
    (hl : ∀ id, Related R (valueOf lookup point id) (valueOf lookup' point id)) (e : Expr) :
    Related R (eval lookup point e) (eval lookup' point e) := by
  have hmisfit : ∀ {e : Expr}, ¬ e.operandsFit = true →
      Related R (eval lookup point e) (eval lookup' point e) := by
    intro e hfit
    rw [eval_of_misfit hfit, eval_of_misfit hfit]
    exact related_ok hR.bottom
  induction e with
  | constant value types =>
    cases value with
    | null => exact hR.null point
    | _ => exact hR.nonNull _ point
  | var id types => exact hl id
  | pushAny types => exact hR.pushAny types point
  | skip types => exact hR.skip point
  | unary op arg types ih =>
    by_cases hfit : (Expr.unary op arg types).operandsFit = true
    · rw [eval_unary hfit, eval_unary hfit]
      exact onDefined_related hR ih fun ha => hR.unary op point ha
    · exact hmisfit hfit
  | binary op left right types ihl ihr =>
    by_cases hfit : (Expr.binary op left right types).operandsFit = true
    · rw [eval_binary hfit, eval_binary hfit]
      exact onDefined_related hR ihl fun hl => onDefined_related hR ihr fun hr =>
        hR.binary op point hl hr
    · exact hmisfit hfit
  | ternary op left middle right types ihl ihm ihr =>
    by_cases hfit : (Expr.ternary op left middle right types).operandsFit = true
    · rw [eval_ternary hfit, eval_ternary hfit]
      exact onDefined_related hR ihl fun hl => onDefined_related hR ihm fun hm =>
        onDefined_related hR ihr fun hr => hR.ternary op point hl hm hr
    · exact hmisfit hfit

end Hooks

/-! ## Two environments -/

namespace Environment

variable {α : Type} [DecidableEq α] [ValueDomain α] {P : α → Prop} {R : α → α → Prop}
  {a b : Environment α} {m : FinMap Identifier α} {point : ProgramPoint}

/-- A variable has the value that is read for it, where unbound variables can hold anything. -/
theorem valueOf_eq_read (hunbound : ∀ id point, evalVariable id point = .ok (top : α))
    (id : Identifier) :
    valueOf m.get? point id = .ok (Pointwise.read (.entries m) id) := by
  unfold valueOf
  cases hid : m.get? id with
  | none => exact (hunbound id point).trans (by rw [Pointwise.read_of_get?_eq_none hid])
  | some v => rw [Pointwise.read_of_get?_eq_some hid]

/-- **Values in environments that read below one another.** -/
theorem eval_related (hR : HooksRelated R) (horder : OrderOn P R)
    (hunbound : ∀ id point, evalVariable id point = .ok (top : α))
    (hb : Pointwise.Canonical P b) (hab : Pointwise.ReadsBelow R a b) (e : Expr) :
    Related R (a.eval e point) (b.eval e point) := by
  cases b with
  | bottom =>
    have ha : a = .bottom := hab.resolve_right fun h => h.1 rfl
    subst ha
    exact related_ok hR.bottom
  | entries n =>
    have hread : ∀ {m : FinMap Identifier α},
        (∀ id, R (Pointwise.read (.entries m) id) (Pointwise.read (.entries n) id)) →
        Related R (eval (.entries m) e point) (eval (.entries n) e point) := fun hmn => by
      refine AbstractDomains.eval_related hR (fun id => ?_) e
      rw [valueOf_eq_read hunbound, valueOf_eq_read hunbound]
      exact related_ok (hmn id)
    cases a with
    | bottom =>
      -- no execution gets to `a`, and the value found in `b` is related to itself
      obtain ⟨c, d, -, hd, hcd⟩ := hread fun id => horder.refl (hb.read_mem horder id)
      have hbottom : isBottom (bottom : α) = true := (horder.isBottom_iff horder.bottom_mem).mpr rfl
      exact ⟨bottom, d, rfl, hd, hR.stop_left hR.bottom hbottom hcd⟩
    | entries m =>
      obtain ⟨-, hmn⟩ := hab.resolve_left (Pointwise.entries_ne_bottom m)
      exact hread hmn

end Environment

/-! ## Two products -/

namespace ReducedProduct

variable {α β : Type} [DecidableEq α] [DecidableEq β] [ValueDomain α] [ValueDomain β] [Describe α]
  [Describe β] {r t : Reduction α β}

/-- Both components are below those of a pair, which may be reduced in another way. -/
def Sharpens (p : ReducedProduct r) (q : ReducedProduct t) : Prop :=
  Below p.left q.left ∧ Below p.right q.right

theorem both_related {R : ReducedProduct r → ReducedProduct t → Prop}
    (hpair : ∀ {a a' : α} {b b' : β}, Below a a' → Below b b' → Related R (pair a b) (pair a' b'))
    {x x' : Analysis α} {y y' : Analysis β} (hx : Related Below x x') (hy : Related Below y y') :
    Related R (both x y) (both x' y') := by
  obtain ⟨a, a', rfl, rfl, ha⟩ := hx
  obtain ⟨b, b', rfl, rfl, hb⟩ := hy
  exact hpair ha hb

/-- **Products are related** in both components if the hooks of the components are monotone, and if
the reduced pair of lower values sharpens the one of higher values. -/
theorem hooksRelated (hα : LatticeOn fun _ : α => True) (hβ : LatticeOn fun _ : β => True)
    (hleft : HooksRelated (Below : α → α → Prop)) (hright : HooksRelated (Below : β → β → Prop))
    (hpair : ∀ {a a' : α} {b b' : β}, Below a a' → Below b b' →
      Related (Sharpens : ReducedProduct r → ReducedProduct t → Prop) (pair a b) (pair a' b')) :
    HooksRelated (Sharpens : ReducedProduct r → ReducedProduct t → Prop) where
  bottom := ⟨below_self _, below_self _⟩
  stop_left {p _ _ _} _ hp _ := by
    have hbottom : p = .bottom := of_decide_eq_true hp
    rw [hbottom]
    exact ⟨hα.bottom_le trivial, hβ.bottom_le trivial⟩
  stop_right {p q} hpq hq := by
    have hbottom : q = .bottom := of_decide_eq_true hq
    rw [hbottom] at hpq
    have hp : p = .bottom := ext (hα.eq_bottom trivial hpq.1) (hβ.eq_bottom trivial hpq.2)
    exact decide_eq_true hp
  null point := both_related hpair (hleft.null point) (hright.null point)
  nonNull value point := both_related hpair (hleft.nonNull value point) (hright.nonNull value point)
  unbound id point := both_related hpair (hleft.unbound id point) (hright.unbound id point)
  pushAny types point := both_related hpair (hleft.pushAny types point) (hright.pushAny types point)
  skip _ := related_ok ⟨below_self _, below_self _⟩
  unary op _ _ point hp :=
    both_related hpair (hleft.unary op point hp.1) (hright.unary op point hp.2)
  binary op _ _ _ _ point hp hq :=
    both_related hpair (hleft.binary op point hp.1 hq.1) (hright.binary op point hp.2 hq.2)
  ternary op _ _ _ _ _ _ point hp hq hs := both_related hpair
    (hleft.ternary op point hp.1 hq.1 hs.1) (hright.ternary op point hp.2 hq.2 hs.2)

/-- The reduced pair of lower values is below the one of higher values. -/
theorem pair_monotone {C : α → Prop} {D : β → Prop} (hα : LatticeOn C) (hβ : LatticeOn D)
    (hr : r.Interior C D) {a a' : α} {b b' : β} (ha : C a) (ha' : C a') (hb : D b) (hb' : D b')
    (haa : Below a a') (hbb : Below b b') :
    Related (ComponentsBelow (r := r)) (pair a b) (pair a' b') := by
  obtain ⟨p, hp, hlow⟩ := exists_pair (r := r) hα hβ hr ha hb
  obtain ⟨q, hq, hhigh⟩ := exists_pair (r := r) hα hβ hr ha' hb'
  have hleft : Below p.left a' := hα.trans hlow.mem.left_mem ha ha' hlow.left haa
  have hright : Below p.right b' := hβ.trans hlow.mem.right_mem hb hb' hlow.right hbb
  exact ⟨p, q, hp, hq, hhigh.greatest hlow.mem hleft hright⟩

/-- **Products are monotone** if their components are. -/
theorem componentsBelow_hooksRelated (hα : LatticeOn fun _ : α => True)
    (hβ : LatticeOn fun _ : β => True) (hleft : HooksRelated (Below : α → α → Prop))
    (hright : HooksRelated (Below : β → β → Prop))
    (hr : r.Interior (fun _ => True) fun _ => True) :
    HooksRelated (ComponentsBelow (r := r)) :=
  hooksRelated (t := r) hα hβ hleft hright fun ha hb =>
    pair_monotone hα hβ hr trivial trivial trivial trivial ha hb

end ReducedProduct

end AbstractDomains
