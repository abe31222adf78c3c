import AbstractDomains.CommandLine.Report
import AbstractDomains.Proofs.Heap.Memory
import AbstractDomains.Proofs.Numeric.Integers

/-!
# Analyses in the shipped domains never fail

A step of an analysis fails only where a reduction does, or is refused for moving a component up.
The reduction of signs and parities moves every pair down, and a plain product changes nothing. So
all that is built of them is free of failures: their lattices, the maps from variables and sites to
their values, and whatever is evaluated, decided, assigned, assumed, read or written.

Results:
* `TotalLattice.operationsSucceed`: what is left to show of a lattice, the trivial cases apart.
* `Pointwise.totalLattice`, `ReducedProduct.totalLattice`: maps and products of total lattices.
* `Shipped.total`: the domains of signs, of parities, of both, and all plain products of them.
* `CommandLine.Report.evaluate_eq_success`: a report has a line for each expression.
* `shipped_never_fail`: nothing of all this fails, and the program does not once its input is read.
-/

namespace AbstractDomains

open Analysis (Succeeds succeeds_ok)

/-! ## Lattices -/

section Lattices

variable {α β κ : Type} [DecidableEq α] [AbstractLattice α] [DecidableEq β] [AbstractLattice β]

/-- A lattice whose operations never fail on the elements that they do not settle trivially. -/
structure TotalLattice (α : Type) [DecidableEq α] [AbstractLattice α] : Prop where
  joinProper : ∀ a b : α, Succeeds (AbstractLattice.joinProper a b)
  meetProper : ∀ a b : α, Succeeds (AbstractLattice.meetProper a b)
  widenProper : ∀ a b : α, Succeeds (AbstractLattice.widenProper a b)
  narrowProper : ∀ a b : α, Succeeds (AbstractLattice.narrowProper a b)
  leqProper : ∀ a b : α, Succeeds (AbstractLattice.leqProper a b)

/-- No operation of a lattice fails, whatever it is applied to. -/
structure OperationsSucceed (α : Type) [DecidableEq α] [AbstractLattice α] : Prop where
  join : ∀ a b : α, (AbstractDomains.join a b).Succeeds
  meet : ∀ a b : α, (AbstractDomains.meet a b).Succeeds
  widen : ∀ a b : α, (AbstractDomains.widen a b).Succeeds
  narrow : ∀ a b : α, (AbstractDomains.narrow a b).Succeeds
  leq : ∀ a b : α, (AbstractDomains.leq a b).Succeeds

theorem TotalLattice.operationsSucceed (h : TotalLattice α) : OperationsSucceed α where
  join := upward_succeeds h.joinProper
  meet := downward_succeeds h.meetProper
  widen := upward_succeeds h.widenProper
  narrow := downward_succeeds h.narrowProper
  leq := leq_succeeds h.leqProper

namespace Pointwise

variable [Ord κ] [DecidableEq κ] [Std.TransOrd κ] [Std.LawfulEqOrd κ]

omit [DecidableEq κ] in
theorem combine_total {op : α → α → Analysis α} (hop : ∀ a b, (op a b).Succeeds)
    (s t : Pointwise κ α) : (combine op s t).Succeeds := by
  cases s with
  | bottom => exact succeeds_ok _
  | entries m =>
    cases t with
    | bottom => exact succeeds_ok _
    | entries n => exact combine_succeeds fun _ _ => hop _ _

theorem meetProper_total (hmeet : ∀ a b : α, (meet a b).Succeeds) (s t : Pointwise κ α) :
    Succeeds (AbstractLattice.meetProper s t) := by
  cases t with
  | bottom => exact succeeds_ok _
  | entries n =>
    cases s with
    | bottom => exact ⟨_, foldlM_restrict_bottom n.entries⟩
    | entries m =>
      refine meetProper_succeeds fun {k w} _ => ?_
      cases m.get? k with
      | none => exact succeeds_ok w
      | some v => exact hmeet v w

/-- **Maps of total lattices are total.** -/
theorem totalLattice (h : TotalLattice α) : TotalLattice (Pointwise κ α) where
  joinProper := combine_total h.operationsSucceed.join
  meetProper := meetProper_total h.operationsSucceed.meet
  widenProper := combine_total h.operationsSucceed.widen
  narrowProper := meetProper_total h.operationsSucceed.meet
  leqProper s t := by
    cases s with
    | bottom => exact succeeds_ok _
    | entries m =>
      cases t with
      | bottom => exact succeeds_ok _
      | entries n =>
        obtain ⟨b, hb, -⟩ := leqEntries_spec (m := m) (n := n) fun _ _ =>
          h.operationsSucceed.leq _ _
        exact ⟨b, hb⟩

end Pointwise

theorem componentwise_succeeds (hα : ∀ a a' : α, (leq a a').Succeeds)
    (hβ : ∀ b b' : β, (leq b b').Succeeds) (p q : α × β) : (componentwise p q).Succeeds := by
  refine (hα p.1 q.1).bind fun below => ?_
  split
  · exact hβ p.2 q.2
  · exact succeeds_ok false

/-- The reduction that changes nothing is never refused, since the order is reflexive. -/
theorem Reduction.none_total : (Reduction.none : Reduction α β).Total := by
  intro a b
  refine ⟨(a, b), rfl, ?_⟩
  unfold componentwise
  rw [leq_self]
  exact leq_self b

/-- **Products of total lattices are total** if the reduction is and decides its order. -/
theorem ReducedProduct.totalLattice [Describe α] [Describe β] {r : Reduction α β}
    (hα : TotalLattice α) (hβ : TotalLattice β) (hr : r.Total)
    (hleq : ∀ p q, (r.leq p q).Succeeds) : TotalLattice (ReducedProduct r) where
  joinProper p q := both_succeeds hr (hα.operationsSucceed.join p.left q.left)
    (hβ.operationsSucceed.join p.right q.right)
  meetProper p q := both_succeeds hr (hα.operationsSucceed.meet p.left q.left)
    (hβ.operationsSucceed.meet p.right q.right)
  widenProper p q := both_succeeds hr (hα.operationsSucceed.widen p.left q.left)
    (hβ.operationsSucceed.widen p.right q.right)
  narrowProper p q := both_succeeds hr (hα.operationsSucceed.narrow p.left q.left)
    (hβ.operationsSucceed.narrow p.right q.right)
  leqProper p q := hleq (p.left, p.right) (q.left, q.right)

end Lattices

/-! ## Shipped domains -/

/-- The domains that are ready to be used: signs, parities, both of them with their reduction, and
any nesting of plain products of these. -/
inductive Shipped : ∀ (α : Type) [DecidableEq α] [ValueDomain α] [Describe α], Prop
  | sign : Shipped Sign
  | parity : Shipped Parity
  | signParity : Shipped SignParity
  | product {α β : Type} [DecidableEq α] [DecidableEq β] [ValueDomain α] [ValueDomain β]
    [Describe α] [Describe β] : Shipped α → Shipped β → Shipped (PlainProduct α β)

theorem Sign.totalLattice : TotalLattice Sign where
  joinProper _ _ := succeeds_ok _
  meetProper _ _ := succeeds_ok _
  widenProper _ _ := succeeds_ok _
  narrowProper _ _ := succeeds_ok _
  leqProper _ _ := succeeds_ok _

theorem Parity.totalLattice : TotalLattice Parity where
  joinProper _ _ := succeeds_ok _
  meetProper _ _ := succeeds_ok _
  widenProper _ _ := succeeds_ok _
  narrowProper _ _ := succeeds_ok _
  leqProper _ _ := succeeds_ok _

theorem SignParity.totalLattice : TotalLattice SignParity :=
  ReducedProduct.totalLattice Sign.totalLattice Parity.totalLattice reduction_total leq_succeeds

/-- **Shipped domains are total**, by induction on the nesting. -/
theorem Shipped.total {α : Type} [DecidableEq α] [ValueDomain α] [Describe α] (h : Shipped α) :
    TotalLattice α ∧ TotalDomain α := by
  induction h with
  | sign => exact ⟨Sign.totalLattice, Sign.totalDomain⟩
  | parity => exact ⟨Parity.totalLattice, Parity.totalDomain⟩
  | signParity => exact ⟨SignParity.totalLattice, SignParity.totalDomain⟩
  | product _ _ ihα ihβ =>
    obtain ⟨hα, hα'⟩ := ihα
    obtain ⟨hβ, hβ'⟩ := ihβ
    have hleq := componentwise_succeeds hα.operationsSucceed.leq hβ.operationsSucceed.leq
    exact ⟨ReducedProduct.totalLattice hα hβ Reduction.none_total hleq,
      ReducedProduct.totalDomain hα' hβ' Reduction.none_total hleq⟩

/-! ## Analyses -/

/-- Nothing fails in an analysis with the domain: no operation on values, environments or memories,
and nothing that is evaluated, decided, assigned, assumed, written or read. -/
structure NeverFails (α : Type) [DecidableEq α] [ValueDomain α] : Prop where
  values : OperationsSucceed α
  environments : OperationsSucceed (Environment α)
  memories : OperationsSucceed (Memory α)
  eval : ∀ (lookup : Identifier → Option α) point e,
    (AbstractDomains.eval lookup point e).Succeeds
  satisfies : ∀ (lookup : Identifier → Option α) point e,
    (AbstractDomains.satisfies lookup point e).Succeeds
  eval_in : ∀ (env : Environment α) e point, (env.eval e point).Succeeds
  satisfies_in : ∀ (env : Environment α) e point, (env.satisfies e point).Succeeds
  assign : ∀ (env : Environment α) id e point, (env.assign id e point).Succeeds
  assume : ∀ (env : Environment α) e point, (env.assume e point).Succeeds
  write : ∀ (memory : Memory α) site v, (memory.write site v).Succeeds
  writeThrough : ∀ (memory : Memory α) targets v, (memory.writeThrough targets v).Succeeds
  readThrough : ∀ (memory : Memory α) targets, (memory.readThrough targets).Succeeds

theorem Environment.assign_succeeds {α : Type} [DecidableEq α] [ValueDomain α] (hD : TotalDomain α)
    (env : Environment α) (id : Identifier) (e : Expr) (point : ProgramPoint) :
    (env.assign id e point).Succeeds :=
  (eval_succeeds hD e).bind fun _ => succeeds_ok _

theorem Memory.write_succeeds {α : Type} [DecidableEq α] [AbstractLattice α]
    (hjoin : ∀ a b : α, (join a b).Succeeds) (memory : Memory α) (site : AllocationSite) (v : α) :
    (memory.write site v).Succeeds := by
  unfold write
  split
  · exact succeeds_ok _
  · split
    · exact succeeds_ok _
    · split
      · exact succeeds_ok _
      · exact (accumulate_succeeds hjoin _ _ v).bind fun _ => succeeds_ok _

theorem neverFails_of_total {α : Type} [DecidableEq α] [ValueDomain α] (hL : TotalLattice α)
    (hD : TotalDomain α) : NeverFails α where
  values := hL.operationsSucceed
  environments := (Pointwise.totalLattice hL).operationsSucceed
  memories := (Pointwise.totalLattice hL).operationsSucceed
  eval _ _ := AbstractDomains.eval_succeeds hD
  satisfies _ _ := AbstractDomains.satisfies_succeeds hD
  eval_in _ e _ := Environment.eval_succeeds hD e
  satisfies_in _ e _ := Environment.satisfies_succeeds hD e
  assign := Environment.assign_succeeds hD
  assume _ e _ := Environment.assume_succeeds hD hL.meetProper e
  write := Memory.write_succeeds hL.operationsSucceed.join
  writeThrough := Memory.writeThrough_succeeds hL.operationsSucceed.join
  readThrough := Memory.readThrough_succeeds hL.operationsSucceed.join

/-! ## Reports -/

namespace CommandLine.Report

variable {α : Type} [DecidableEq α] [ValueDomain α] [ToString α]

theorem exists_line (hD : TotalDomain α) (e : Expr) (point : ProgramPoint) :
    ∃ text, line α e point = .ok text := by
  obtain ⟨a, ha⟩ : (Environment.eval (.top : Environment α) e point).Succeeds :=
    Environment.eval_succeeds hD e
  obtain ⟨s, hs⟩ : (Environment.satisfies (.top : Environment α) e point).Succeeds :=
    Environment.satisfies_succeeds hD e
  unfold line
  simp only [ha, hs, Except.mapError, bind, Except.bind]
  split
  · exact ⟨_, rfl⟩
  · exact ⟨_, rfl⟩

/-- **A report has a line for each expression**, in a domain whose hooks never fail. -/
theorem evaluate_eq_success (hD : TotalDomain α) (exprs : List Expr) (index : Nat) :
    ∃ lines, evaluate α index exprs = success lines ∧ lines.length = exprs.length := by
  induction exprs generalizing index with
  | nil => exact ⟨[], rfl, rfl⟩
  | cons e rest ih =>
    obtain ⟨text, htext⟩ := exists_line hD e (inputPoint index)
    obtain ⟨lines, hlines, hlength⟩ := ih (index + 1)
    refine ⟨text :: lines, ?_, congrArg Nat.succ hlength⟩
    unfold evaluate
    rw [htext, hlines]
    rfl

theorem ofExprs_eq_success (domain : DomainName) (exprs : List Expr) :
    ∃ lines, ofExprs domain exprs = success lines ∧ lines.length = exprs.length := by
  cases domain with
  | sign => exact evaluate_eq_success Sign.totalDomain exprs 0
  | parity => exact evaluate_eq_success Parity.totalDomain exprs 0
  | signParity => exact evaluate_eq_success SignParity.totalDomain exprs 0

/-- An input that can be read is reported on without a failure. -/
theorem ofInput_eq_success (options : Options) {text : String} {exprs : List Expr}
    (h : Expr.parseList? text = some exprs) :
    ∃ lines, ofInput options (some text) = success lines ∧
      lines.length = if options.quiet then 0 else exprs.length := by
  obtain ⟨lines, hlines, hlength⟩ := ofExprs_eq_success options.domain exprs
  unfold ofInput
  simp only [h, hlines]
  by_cases hquiet : options.quiet = true
  · exact ⟨[], by simp [hquiet, success], by simp [hquiet]⟩
  · exact ⟨lines, by simp [hquiet], by simp [hquiet, hlength]⟩

end CommandLine.Report

open CommandLine in
/-- **Nothing fails in the shipped domains.** No operation on their values, on environments or on
memories fails, whatever it is applied to. No reduced pair is refused. The program succeeds as soon
as its arguments and its input can be read, with a line for each expression unless it is quiet. -/
theorem shipped_never_fail :
    (∀ (α : Type) [DecidableEq α] [ValueDomain α] [Describe α], Shipped α → NeverFails α) ∧
    ((∀ (s : Sign) (p : Parity), (ReducedProduct.pair s p : Analysis SignParity).Succeeds) ∧
      ∀ (α β : Type) [DecidableEq α] [DecidableEq β] [AbstractLattice α] [AbstractLattice β]
        [Describe α] [Describe β] (a : α) (b : β),
        (ReducedProduct.pair a b : Analysis (PlainProduct α β)).Succeeds) ∧
    ∀ args options text exprs, Options.parse args = .ok (.evaluate options) →
      Expr.parseList? text = some exprs →
      ∃ lines, Report.ofCommand (Options.parse args) (some text) = Report.success lines ∧
        lines.length = if options.quiet then 0 else exprs.length := by
  refine ⟨?_, ⟨?_, ?_⟩, ?_⟩
  · intro α _ _ _ h
    exact neverFails_of_total h.total.1 h.total.2
  · exact ReducedProduct.pair_succeeds SignParity.reduction_total
  · intro α β _ _ _ _ _ _
    exact ReducedProduct.pair_succeeds Reduction.none_total
  · intro args options text exprs hargs htext
    rw [hargs]
    exact Report.ofInput_eq_success options htext

open CommandLine in
/-- A product of products, pairs that the reduction turns to bottom and that it leaves, and a run of
the program on `1 / 0`. -/
theorem shipped_never_fail_byZero :
    let args := ["-d", "sign", "input.json"]
    let options : Options := ⟨.sign, false, false, "input.json"⟩
    let text := "[[\x7b\"binary\":[\"numeric-div\",[\x7b\"constant\":\x7b\"int\":1\x7d\x7d]," ++
      "[\x7b\"constant\":\x7b\"int\":0\x7d\x7d]]\x7d]]"
    let byZero : Expr :=
      .binary .numericDiv (.constant (.int 1) .empty) (.constant (.int 0) .empty) .empty
    Shipped (PlainProduct SignParity (PlainProduct Sign Parity)) ∧
      NeverFails (PlainProduct SignParity (PlainProduct Sign Parity)) ∧
      (ReducedProduct.pair Sign.zero Parity.odd : Analysis SignParity).Succeeds ∧
      (ReducedProduct.pair Parity.odd ⟨.plus, .top⟩ :
        Analysis (PlainProduct Parity SignParity)).Succeeds ∧
      Options.parse args = .ok (.evaluate options) ∧ Expr.parseList? text = some [byZero] ∧
      ∃ lines, Report.ofCommand (Options.parse args) (some text) = Report.success lines ∧
        lines.length = 1 := by
  intro args options text byZero
  obtain ⟨hdomains, ⟨hpairs, hplain⟩, hprogram⟩ := shipped_never_fail
  have hnested : Shipped (PlainProduct SignParity (PlainProduct Sign Parity)) :=
    .product .signParity (.product .sign .parity)
  have hargs : Options.parse args = .ok (.evaluate options) := rfl
  have htext : Expr.parseList? text = some [byZero] := by decide +kernel
  exact ⟨hnested, hdomains _ hnested, hpairs _ _,
    hplain Parity SignParity _ _, hargs, htext,
    hprogram args options text [byZero] hargs htext⟩

end AbstractDomains
