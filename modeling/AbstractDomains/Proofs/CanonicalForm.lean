import AbstractDomains.Proofs.Heap.Reached
import AbstractDomains.Proofs.Monotonicity

/-!
# What is reached is in canonical form

An environment stores what is known of a variable only if something is, and a memory likewise: no
value that counts as top or as bottom is ever stored. So there is one way to know nothing, and two
environments or memories that tell the same of every key are the same.

Results:
* `Pointwise.canonicalForms`: maps that store neither top nor bottom are told apart by their reads.
* `Environment.eval_var`: a variable reads as what it evaluates to.
* `reached_in_canonical_form`: the environments and the memories of signs, of parities and of both.
-/

namespace AbstractDomains

open ValueDomain

namespace Pointwise

variable {κ α : Type} [Ord κ] [DecidableEq κ] [Std.TransOrd κ] [Std.LawfulEqOrd κ] [DecidableEq α]
  [AbstractLattice α] {P : α → Prop} {R : α → α → Prop} {s t : Pointwise κ α} {k : κ} {a : α}

/-- The states in `Q` have one form each: they store nothing that counts as top or bottom, only the
one without entries counts as top, and those that are not bottom differ only if some key reads
differently in them. -/
structure CanonicalForms (Q : Pointwise κ α → Prop) : Prop where
  stored : ∀ {s k a}, Q s → s.get? k = some a → isTop a = false ∧ isBottom a = false
  isTop_iff : ∀ {s}, Q s → (isTop s = true ↔ s = top)
  eq_iff_read : ∀ {s t}, Q s → Q t → s ≠ bottom → t ≠ bottom → (s = t ↔ ∀ k, s.read k = t.read k)

omit [DecidableEq κ] [Std.TransOrd κ] [Std.LawfulEqOrd κ] in
theorem Canonical.stored (h : OrderOn P R) (hs : Canonical P s) (hk : s.get? k = some a) :
    isTop a = false ∧ isBottom a = false := by
  cases s with
  | bottom => cases hk
  | entries m =>
    obtain ⟨hmem, htop, hbottom⟩ := hs k a hk
    constructor
    · rw [Bool.eq_false_iff]
      exact fun hcounts => htop ((h.isTop_iff hmem).mp hcounts)
    · rw [Bool.eq_false_iff]
      exact fun hcounts => hbottom ((h.isBottom_iff hmem).mp hcounts)

/-- **Canonical maps are told apart by their reads.** -/
theorem canonicalForms (h : OrderOn P R) {Q : Pointwise κ α → Prop}
    (hQ : ∀ {s}, Q s → Canonical P s) : CanonicalForms Q where
  stored hs hk := (hQ hs).stored h hk
  isTop_iff hs := (hQ hs).isTop_iff h
  eq_iff_read hs ht hsne htne := by
    constructor
    · rintro rfl k
      rfl
    · exact (hQ hs).eq_of_read (hQ ht) hsne htne

end Pointwise

section Reached

variable {α : Type} [DecidableEq α] [ValueDomain α] {P : α → Prop} {R : α → α → Prop}

/-- **A variable reads as what it evaluates to**, where unbound variables can hold anything. -/
theorem Environment.eval_var (hunbound : ∀ id point, evalVariable id point = .ok (top : α))
    (env : Environment α) (id : Identifier) (types : TypeSet) (point : ProgramPoint) :
    env.eval (.var id types) point = .ok (env.read id) := by
  cases env with
  | bottom => rfl
  | entries m => exact valueOf_eq_read hunbound id

/-- All that can be reached with values in `P` is in canonical form, where environments are read by
evaluating variables. -/
structure ReachedForms (P : α → Prop) : Prop where
  environments : Pointwise.CanonicalForms (Environment.Reached P)
  memories : Pointwise.CanonicalForms (Memory.Reached P)
  eval_var : ∀ (env : Environment α) id types point,
    env.eval (.var id types) point = .ok (env.read id)

theorem reachedForms (hD : DomainOn P R)
    (hunbound : ∀ id point, evalVariable id point = .ok (top : α)) : ReachedForms P where
  environments := Pointwise.canonicalForms hD.toOrderOn (Environment.Reached.canonical hD)
  memories := Pointwise.canonicalForms hD.toOrderOn
    (Memory.Reached.canonical hD.toLatticeOrder hD.widen_eq_join)
  eval_var := Environment.eval_var hunbound

end Reached

/-- **What is reached is in canonical form**, over signs, over parities and over pairs of both: no
operation leaves anything in an environment or in a memory that counts as top or as bottom. So the
only one of them that counts as top is top itself, and two that are not bottom are equal iff all
variables, or all sites, read the same. -/
theorem reached_in_canonical_form :
    ReachedForms (fun _ : Sign => True) ∧ ReachedForms (fun _ : Parity => True) ∧
      ReachedForms SignParity.Built := by
  refine ⟨?_, ?_, ?_⟩
  · exact reachedForms Sign.domainOn fun _ _ => rfl
  · exact reachedForms Parity.domainOn fun _ _ => rfl
  · exact reachedForms SignParity.domainOn fun _ _ => rfl

/-- An odd positive `x` beside some `y`. -/
def oddBeside (y : SignParity) : Environment SignParity :=
  Pointwise.set (Pointwise.set .top "x" ⟨.plus, .odd⟩) "y" y

/-- A memory in which the objects of a loop hold odd positive numbers. -/
def oddObjects : Memory SignParity :=
  Pointwise.set .top ⟨"loop", none⟩ ⟨.plus, .odd⟩

/-- A join leaves nothing known of `y`, as if it had been forgotten, and an even negative number
written to one of several objects leaves nothing known of them. -/
theorem reached_in_canonical_form_of_joins :
    let a := oddBeside ⟨.plus, .odd⟩
    let b := oddBeside ⟨.minus, .even⟩
    (∃ c, join a b = .ok c ∧ c = a.forget "y" ∧ (∀ id, c.read id = (a.forget "y").read id) ∧
      ∀ id v, c.get? id = some v → isTop v = false ∧ isBottom v = false) ∧
    ∃ memory, oddObjects.write ⟨⟨"loop", none⟩, .weak⟩ ⟨.minus, .even⟩ = .ok memory ∧
      isTop memory = true ∧ memory = .top := by
  intro a b
  obtain ⟨-, -, hforms⟩ := reached_in_canonical_form
  have hodd : SignParity.Built ⟨.plus, .odd⟩ := .pair (a := .plus) (b := .odd) trivial trivial rfl
  have heven : SignParity.Built ⟨.minus, .even⟩ :=
    .pair (a := .minus) (b := .even) trivial trivial rfl
  constructor
  · have hx : Environment.Reached SignParity.Built (Pointwise.set .top "x" ⟨.plus, .odd⟩) :=
      .set "x" .top hodd
    have hjoin : join a b = .ok (a.forget "y") := by decide
    have hc : Environment.Reached SignParity.Built (a.forget "y") :=
      .join (.set "y" hx hodd) (.set "y" hx heven) hjoin
    have hread := hforms.environments.eq_iff_read hc hc (Pointwise.entries_ne_bottom _)
      (Pointwise.entries_ne_bottom _)
    exact ⟨_, hjoin, rfl, hread.mp rfl, fun id v hv => hforms.environments.stored hc hv⟩
  · have hwrite : oddObjects.write ⟨⟨"loop", none⟩, .weak⟩ ⟨.minus, .even⟩ = .ok .top := by decide
    have hfirst : Memory.write .top ⟨⟨"loop", none⟩, .strong⟩ ⟨.plus, .odd⟩ = .ok oddObjects := rfl
    have hmemory : oddObjects.Reached SignParity.Built := .write .top hodd hfirst
    have hcounts : isTop (.top : Memory SignParity) = true := by decide
    exact ⟨_, hwrite, hcounts, (hforms.memories.isTop_iff (.write hmemory heven hwrite)).mp hcounts⟩

end AbstractDomains
