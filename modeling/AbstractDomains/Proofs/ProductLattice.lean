import AbstractDomains.Proofs.Numeric.Lattices
import AbstractDomains.Proofs.ReducedProduct

/-!
# Reduced products are lattices

A reduction that is monotone, reductive and idempotent picks the greatest reduced pair below two
values, and so does the product that also takes every pair with a bottom component for bottom
(`ReducedProduct.IsReduction`). Joins of reduced pairs are then reduced again and meets are reduced
anew, which makes the pairs that a product ever builds a lattice. Top belongs to it even if the
reduction would sharpen it.

Results:
* `ReducedProduct.exists_pair`: the reduced pair of two values is the greatest one below them.
* `ReducedProduct.built_iff`: what can be built are the reduced pairs and top.
* `ReducedProduct.latticeOrder`: joins and meets of such pairs, whatever order the product decides.
* `ReducedProduct.lattice_of_wellBehaved`: the product is a lattice if its components are.
-/

namespace AbstractDomains

variable {α β : Type} [DecidableEq α] [DecidableEq β] [AbstractLattice α] [AbstractLattice β]
  (C : α → Prop) (D : β → Prop)

/-! ## Reductions -/

/-- A reduction that never fails and is reductive, monotone and idempotent in the componentwise
order. -/
structure Reduction.WellBehaved (r : Reduction α β) : Prop where
  exists_reduce : ∀ {a b}, C a → D b → ∃ c, r.reduce a b = .ok c ∧ C c.1 ∧ D c.2
  reductive : ∀ {a b c}, C a → D b → r.reduce a b = .ok c → Below c.1 a ∧ Below c.2 b
  monotone : ∀ {a b a' b' c c'}, C a → D b → C a' → D b' → Below a a' → Below b b' →
    r.reduce a b = .ok c → r.reduce a' b' = .ok c' → Below c.1 c'.1 ∧ Below c.2 c'.2
  idempotent : ∀ {a b c}, C a → D b → r.reduce a b = .ok c → r.reduce c.1 c.2 = .ok c

/-- What a product needs of a reduction. It never asks for the reduction of bottom, and takes a pair
with one bottom component for bottom, so monotony only matters apart from them. -/
structure Reduction.Interior (r : Reduction α β) : Prop where
  exists_reduce : ∀ {a b}, C a → D b → ∃ c, r.reduce a b = .ok c ∧ C c.1 ∧ D c.2
  reductive : ∀ {a b c}, C a → D b → r.reduce a b = .ok c → Below c.1 a ∧ Below c.2 b
  monotone : ∀ {a b a' b' c c'}, C a → D b → C a' → D b' → Below a a' → Below b b' →
    a ≠ bottom → b ≠ bottom → r.reduce a b = .ok c → r.reduce a' b' = .ok c' →
    (c.1 = bottom ∨ c.2 = bottom) ∨ (Below c.1 c'.1 ∧ Below c.2 c'.2)
  idempotent : ∀ {a b c}, C a → D b → r.reduce a b = .ok c → r.reduce c.1 c.2 = .ok c

variable {C D} {r : Reduction α β}

theorem Reduction.WellBehaved.interior (hr : r.WellBehaved C D) : r.Interior C D where
  exists_reduce := hr.exists_reduce
  reductive := hr.reductive
  monotone ha hb ha' hb' haa hbb _ _ hc hc' := .inr (hr.monotone ha hb ha' hb' haa hbb hc hc')
  idempotent := hr.idempotent

/-- The reduction that changes nothing is well-behaved. -/
theorem Reduction.none_wellBehaved : (Reduction.none : Reduction α β).WellBehaved C D where
  exists_reduce {a b} ha hb := ⟨(a, b), rfl, ha, hb⟩
  reductive {a b c} _ _ h := by
    obtain rfl := Except.ok.inj h
    exact ⟨below_self a, below_self b⟩
  monotone _ _ _ _ haa hbb h h' := by
    obtain rfl := Except.ok.inj h
    obtain rfl := Except.ok.inj h'
    exact ⟨haa, hbb⟩
  idempotent _ _ _ := rfl

theorem componentwise_spec (hα : LatticeOn C) (hβ : LatticeOn D) {a a' : α} {b b' : β} (ha : C a)
    (ha' : C a') (hb : D b) (hb' : D b') :
    ∃ x, componentwise (a, b) (a', b') = .ok x ∧ (x = true ↔ Below a a' ∧ Below b b') := by
  obtain ⟨x, hx, hxt⟩ := hα.leqDecides ha ha'
  obtain ⟨y, hy, hyt⟩ := hβ.leqDecides hb hb'
  unfold componentwise
  rw [hx]
  cases x with
  | false => exact ⟨false, rfl, iff_of_false Bool.false_ne_true fun h => Bool.false_ne_true (hxt.mpr h.1)⟩
  | true => exact ⟨y, hy, hyt.trans (and_iff_right (hxt.mp rfl)).symm⟩

theorem below_of_componentwise {c : α × β} {a : α} {b : β}
    (h : componentwise c (a, b) = .ok true) : Below c.1 a ∧ Below c.2 b := by
  obtain ⟨x, hx, h⟩ := Analysis.bind_eq_ok.mp h
  cases x with
  | false => cases h
  | true => exact ⟨hx, h⟩

namespace ReducedProduct

/-! ## Reduced pairs -/

/-- Both components are below those of the other pair. -/
def ComponentsBelow (p q : ReducedProduct r) : Prop :=
  Below p.left q.left ∧ Below p.right q.right

theorem componentsBelow_self (p : ReducedProduct r) : ComponentsBelow p p :=
  ⟨below_self p.left, below_self p.right⟩

variable [Describe α] [Describe β] {p q s : ReducedProduct r} {a : α} {b : β}

variable (C D) in
/-- There is nothing left to reduce in the pair. -/
structure Reduced (p : ReducedProduct r) : Prop where
  left_mem : C p.left
  right_mem : D p.right
  pair_eq : pair p.left p.right = .ok p

variable (C D) in
/-- `p` is the greatest reduced pair below two values. -/
structure IsReduction (a : α) (b : β) (p : ReducedProduct r) : Prop where
  mem : Reduced C D p
  left : Below p.left a
  right : Below p.right b
  greatest : ∀ {q : ReducedProduct r}, Reduced C D q → Below q.left a → Below q.right b →
    ComponentsBelow q p

theorem pair_of_bottom (h : isBottom a = true ∨ isBottom b = true) :
    (pair a b : Analysis (ReducedProduct r)) = .ok .bottom :=
  if_pos (Bool.or_eq_true_iff.mpr h)

theorem reduced_bottom (hα : LatticeOn C) (hβ : LatticeOn D) :
    Reduced C D (.bottom : ReducedProduct r) where
  left_mem := hα.bottom_mem
  right_mem := hβ.bottom_mem
  pair_eq := pair_of_bottom (.inl ((hα.isBottom_iff hα.bottom_mem).mpr rfl))

/-- A reduced pair with a bottom component is bottom. -/
theorem Reduced.eq_bottom (hα : LatticeOn C) (hβ : LatticeOn D) (hp : Reduced C D p)
    (h : p.left = AbstractDomains.bottom ∨ p.right = AbstractDomains.bottom) : p = .bottom := by
  have hbottom : isBottom p.left = true ∨ isBottom p.right = true :=
    h.imp (hα.isBottom_iff hp.left_mem).mpr (hβ.isBottom_iff hp.right_mem).mpr
  exact Except.ok.inj (hp.pair_eq.symm.trans (pair_of_bottom hbottom))

/-- The reduction leaves a reduced pair as it is, unless it is bottom. -/
theorem Reduced.reduce_eq (hp : Reduced C D p) (hne : p ≠ .bottom) :
    r.reduce p.left p.right = .ok (p.left, p.right) := by
  rcases pair_inv hp.pair_eq with ⟨hb, -⟩ | ⟨c, hc, -, ⟨hb, -⟩ | hp'⟩
  · exact absurd hb hne
  · exact absurd hb hne
  · rw [hc, Except.ok.injEq]
    exact Prod.ext (congrArg ReducedProduct.left hp').symm (congrArg ReducedProduct.right hp').symm

/-- A reduced pair below two values is below their reduction, unless it is bottom. -/
theorem Reduced.below_reduce (hα : LatticeOn C) (hβ : LatticeOn D) (hr : r.Interior C D)
    (hq : Reduced C D q) (hne : q ≠ .bottom) (ha : C a) (hb : D b) (hqa : Below q.left a)
    (hqb : Below q.right b) {c : α × β} (hc : r.reduce a b = .ok c) :
    Below q.left c.1 ∧ Below q.right c.2 := by
  have hleft : q.left ≠ AbstractDomains.bottom := fun h => hne (hq.eq_bottom hα hβ (.inl h))
  have hright : q.right ≠ AbstractDomains.bottom := fun h => hne (hq.eq_bottom hα hβ (.inr h))
  rcases hr.monotone hq.left_mem hq.right_mem ha hb hqa hqb hleft hright (hq.reduce_eq hne) hc with
    (h | h) | h
  · exact absurd h hleft
  · exact absurd h hright
  · exact h

/-- Two values below which there is nothing else are reduced to bottom. -/
theorem isReduction_bottom (hα : LatticeOn C) (hβ : LatticeOn D) (ha : C a) (hb : D b)
    (h : ∀ {q : ReducedProduct r}, Reduced C D q → Below q.left a → Below q.right b → q = .bottom) :
    IsReduction C D a b (.bottom : ReducedProduct r) where
  mem := reduced_bottom hα hβ
  left := hα.bottom_le ha
  right := hβ.bottom_le hb
  greatest hq hqa hqb := by
    rw [h hq hqa hqb]
    exact componentsBelow_self _

/-- Two values that are not bottom, and whose reduction is not, are reduced to that. -/
theorem isReduction_reduce (hα : LatticeOn C) (hβ : LatticeOn D) (hr : r.Interior C D) (ha : C a)
    (hb : D b) {c : α × β} (hc : r.reduce a b = .ok c) (hcl : C c.1) (hcr : D c.2)
    (hne : c.1 ≠ AbstractDomains.bottom ∧ c.2 ≠ AbstractDomains.bottom) :
    IsReduction C D a b (⟨c.1, c.2⟩ : ReducedProduct r) where
  mem := by
    refine ⟨hcl, hcr, ?_⟩
    have hself : componentwise c (c.1, c.2) = .ok true := by
      obtain ⟨x, hx, hxt⟩ := componentwise_spec hα hβ hcl hcl hcr hcr
      rwa [hxt.mpr ⟨below_self _, below_self _⟩] at hx
    simp [pair, hr.idempotent ha hb hc, hself, hα.isBottom_eq_false hcl hne.1,
      hβ.isBottom_eq_false hcr hne.2, bind, Except.bind, pure, Except.pure]
  left := (hr.reductive ha hb hc).1
  right := (hr.reductive ha hb hc).2
  greatest {q} hq hqa hqb := by
    by_cases hqbot : q = .bottom
    · rw [hqbot]
      exact ⟨hα.bottom_le hcl, hβ.bottom_le hcr⟩
    · exact hq.below_reduce hα hβ hr hqbot ha hb hqa hqb hc

/-- **The reduced pair of two values is the greatest one below them.** -/
theorem exists_pair (hα : LatticeOn C) (hβ : LatticeOn D) (hr : r.Interior C D) (ha : C a)
    (hb : D b) : ∃ p : ReducedProduct r, pair a b = .ok p ∧ IsReduction C D a b p := by
  by_cases hbot : a = AbstractDomains.bottom ∨ b = AbstractDomains.bottom
  · refine ⟨.bottom, pair_of_bottom (hbot.imp (hα.isBottom_iff ha).mpr (hβ.isBottom_iff hb).mpr),
      isReduction_bottom hα hβ ha hb fun hq hqa hqb => hq.eq_bottom hα hβ ?_⟩
    exact hbot.imp (fun h : a = AbstractDomains.bottom => hα.eq_bottom hq.left_mem (h ▸ hqa))
      (fun h : b = AbstractDomains.bottom => hβ.eq_bottom hq.right_mem (h ▸ hqb))
  · obtain ⟨hane, hbne⟩ := not_or.mp hbot
    obtain ⟨c, hc, hcl, hcr⟩ := hr.exists_reduce ha hb
    obtain ⟨hca, hcb⟩ := hr.reductive ha hb hc
    have hbelow : componentwise c (a, b) = .ok true := by
      obtain ⟨x, hx, hxt⟩ := componentwise_spec hα hβ hcl ha hcr hb
      rwa [hxt.mpr ⟨hca, hcb⟩] at hx
    have hpair : (pair a b : Analysis (ReducedProduct r)) =
        .ok (if isBottom c.1 || isBottom c.2 then .bottom else ⟨c.1, c.2⟩) := by
      simp [pair, hc, hbelow, hα.isBottom_eq_false ha hane, hβ.isBottom_eq_false hb hbne, bind,
        Except.bind, pure, Except.pure]
    refine ⟨_, hpair, ?_⟩
    split
    · rename_i h
      rw [Bool.or_eq_true_iff, hα.isBottom_iff hcl, hβ.isBottom_iff hcr] at h
      refine isReduction_bottom hα hβ ha hb fun {q} hq hqa hqb => by_contra fun hne => ?_
      -- the pair would be below the reduction, which has a bottom component
      obtain ⟨hqc, hqc'⟩ := hq.below_reduce hα hβ hr hne ha hb hqa hqb hc
      refine hne (hq.eq_bottom hα hβ (h.imp ?_ ?_))
      · intro h
        exact hα.eq_bottom hq.left_mem (h ▸ hqc)
      · intro h
        exact hβ.eq_bottom hq.right_mem (h ▸ hqc')
    · rename_i h
      rw [Bool.or_eq_true_iff, hα.isBottom_iff hcl, hβ.isBottom_iff hcr, not_or] at h
      exact isReduction_reduce hα hβ hr ha hb hc hcl hcr h

/-! ## What can be built -/

/-- The pairs that are reached from top, bottom and reduced pairs by the operations. -/
inductive Built (C : α → Prop) (D : β → Prop) : ReducedProduct r → Prop
  | top : Built C D .top
  | bottom : Built C D .bottom
  | pair {a : α} {b : β} {p : ReducedProduct r} : C a → D b → pair a b = .ok p → Built C D p
  | join {p q s : ReducedProduct r} :
    Built C D p → Built C D q → AbstractDomains.join p q = .ok s → Built C D s
  | meet {p q s : ReducedProduct r} :
    Built C D p → Built C D q → AbstractDomains.meet p q = .ok s → Built C D s
  | widen {p q s : ReducedProduct r} :
    Built C D p → Built C D q → AbstractDomains.widen p q = .ok s → Built C D s
  | narrow {p q s : ReducedProduct r} :
    Built C D p → Built C D q → AbstractDomains.narrow p q = .ok s → Built C D s

variable (C D) in
/-- A reduced pair, or top, which need not be one. -/
def ReducedOrTop (p : ReducedProduct r) : Prop :=
  p = .top ∨ Reduced C D p

theorem ReducedOrTop.left_mem (hα : LatticeOn C) (hp : ReducedOrTop C D p) : C p.left := by
  rcases hp with rfl | hp
  · exact hα.top_mem
  · exact hp.left_mem

theorem ReducedOrTop.right_mem (hβ : LatticeOn D) (hp : ReducedOrTop C D p) : D p.right := by
  rcases hp with rfl | hp
  · exact hβ.top_mem
  · exact hp.right_mem

theorem ReducedOrTop.reduced (hp : ReducedOrTop C D p) (htop : isTop p = false) : Reduced C D p :=
  hp.resolve_left (of_decide_eq_false htop)

/-- A step on the components ends in a reduced pair if it succeeds on each of them. -/
theorem exists_both (hα : LatticeOn C) (hβ : LatticeOn D) (hr : r.Interior C D) {x : Analysis α}
    {y : Analysis β} (hx : ∃ a, x = .ok a ∧ C a) (hy : ∃ b, y = .ok b ∧ D b) :
    ∃ s : ReducedProduct r, both x y = .ok s ∧ Reduced C D s := by
  obtain ⟨a, rfl, ha⟩ := hx
  obtain ⟨b, rfl, hb⟩ := hy
  obtain ⟨s, hs, hred⟩ := exists_pair hα hβ hr ha hb
  exact ⟨s, hs, hred.mem⟩

theorem orderOn (hα : LatticeOn C) (hβ : LatticeOn D) :
    OrderOn (ReducedOrTop C D : ReducedProduct r → Prop) ComponentsBelow where
  bottom_mem := .inr (reduced_bottom hα hβ)
  top_mem := .inl rfl
  bottom_ne_top h := hα.bottom_ne_top (congrArg ReducedProduct.left h)
  isBottom_iff _ := decide_eq_true_iff
  isTop_iff _ := decide_eq_true_iff
  refl _ := componentsBelow_self _
  antisymm hp hq hpq hqp :=
    ext (hα.antisymm (hp.left_mem hα) (hq.left_mem hα) hpq.1 hqp.1)
      (hβ.antisymm (hp.right_mem hβ) (hq.right_mem hβ) hpq.2 hqp.2)
  trans hp hq hs hpq hqs :=
    ⟨hα.trans (hp.left_mem hα) (hq.left_mem hα) (hs.left_mem hα) hpq.1 hqs.1,
      hβ.trans (hp.right_mem hβ) (hq.right_mem hβ) (hs.right_mem hβ) hpq.2 hqs.2⟩
  bottom_le hp := ⟨hα.bottom_le (hp.left_mem hα), hβ.bottom_le (hp.right_mem hβ)⟩
  le_top hp := ⟨hα.le_top (hp.left_mem hα), hβ.le_top (hp.right_mem hβ)⟩

/-- The reduced pair of the joins of the components is the join. -/
theorem isJoin_pair (hα : LatticeOn C) (hβ : LatticeOn D) (hp : Reduced C D p) (hq : Reduced C D q)
    (ha : IsJoin C Below p.left q.left a) (hb : IsJoin D Below p.right q.right b)
    (hs : IsReduction C D a b s) : IsJoin (ReducedOrTop C D) ComponentsBelow p q s where
  mem := .inr hs.mem
  left := hs.greatest hp ha.left hb.left
  right := hs.greatest hq ha.right hb.right
  least hd hpd hqd :=
    have hdl := hd.left_mem hα
    have hdr := hd.right_mem hβ
    ⟨hα.trans hs.mem.left_mem ha.mem hdl hs.left (ha.least hdl hpd.1 hqd.1),
      hβ.trans hs.mem.right_mem hb.mem hdr hs.right (hb.least hdr hpd.2 hqd.2)⟩

/-- The reduced pair of the meets of the components is the meet, as what is below both operands is
reduced or both of them are top. -/
theorem isMeet_pair (hα : LatticeOn C) (hβ : LatticeOn D) (hp : Reduced C D p) (hq : Reduced C D q)
    (hne : isTop p = false) (ha : IsMeet C Below p.left q.left a)
    (hb : IsMeet D Below p.right q.right b) (hs : IsReduction C D a b s) :
    IsMeet (ReducedOrTop C D) ComponentsBelow p q s where
  mem := .inr hs.mem
  left := ⟨hα.trans hs.mem.left_mem ha.mem hp.left_mem hs.left ha.left,
    hβ.trans hs.mem.right_mem hb.mem hp.right_mem hs.right hb.left⟩
  right := ⟨hα.trans hs.mem.left_mem ha.mem hq.left_mem hs.left ha.right,
    hβ.trans hs.mem.right_mem hb.mem hq.right_mem hs.right hb.right⟩
  greatest {d} hd hdp hdq := by
    rcases hd with rfl | hd
    · exact absurd ((orderOn hα hβ).eq_top (.inr hp) hdp) (of_decide_eq_false hne)
    · exact hs.greatest hd (ha.greatest hd.left_mem hdp.1 hdq.1)
        (hb.greatest hd.right_mem hdp.2 hdq.2)

/-- **Joins and meets of a product** are bounds in the componentwise order, whatever order the
product decides. -/
theorem latticeOrder (hα : LatticeOn C) (hβ : LatticeOn D) (hr : r.Interior C D) :
    LatticeOrder (ReducedOrTop C D : ReducedProduct r → Prop) ComponentsBelow := by
  refine .of_proper (orderOn hα hβ) (fun {p q} hp hq hpq => ?_) (fun {p q} hp hq hpq => ?_)
  · have hp := hp.reduced hpq.left_top
    have hq := hq.reduced hpq.right_top
    obtain ⟨a, hjoin, ha⟩ := hα.exists_join hp.left_mem hq.left_mem
    obtain ⟨b, hjoin', hb⟩ := hβ.exists_join hp.right_mem hq.right_mem
    obtain ⟨s, hpair, hs⟩ := exists_pair hα hβ hr ha.mem hb.mem
    refine ⟨s, ?_, isJoin_pair hα hβ hp hq ha hb hs⟩
    show both (join p.left q.left) (join p.right q.right) = _
    rw [hjoin, hjoin']
    exact hpair
  · have htop := hpq.left_top
    have hp := hp.reduced htop
    have hq := hq.reduced hpq.right_top
    obtain ⟨a, hmeet, ha⟩ := hα.exists_meet hp.left_mem hq.left_mem
    obtain ⟨b, hmeet', hb⟩ := hβ.exists_meet hp.right_mem hq.right_mem
    obtain ⟨s, hpair, hs⟩ := exists_pair hα hβ hr ha.mem hb.mem
    refine ⟨s, ?_, isMeet_pair hα hβ hp hq htop ha hb hs⟩
    show both (meet p.left q.left) (meet p.right q.right) = _
    rw [hmeet, hmeet']
    exact hpair

/-- Widening and narrowing of a product end in a reduced pair or return an operand. -/
theorem iteratesOn (hα : LatticeOn C) (hβ : LatticeOn D) (hα' : IteratesOn C) (hβ' : IteratesOn D)
    (hr : r.Interior C D) : IteratesOn (ReducedOrTop C D : ReducedProduct r → Prop) where
  exists_widen {p q} hp hq := by
    unfold widen
    rcases upward_cases AbstractLattice.widenProper p q with ⟨h, -⟩ | ⟨h, -⟩ | ⟨-, h⟩
    · exact ⟨p, h, hp⟩
    · exact ⟨q, h, hq⟩
    · obtain ⟨s, hs, hred⟩ := exists_both (r := r) hα hβ hr
        (hα'.exists_widen (hp.left_mem hα) (hq.left_mem hα))
        (hβ'.exists_widen (hp.right_mem hβ) (hq.right_mem hβ))
      exact ⟨s, h.trans hs, .inr hred⟩
  exists_narrow {p q} hp hq := by
    unfold narrow
    rcases downward_cases AbstractLattice.narrowProper p q with ⟨h, -⟩ | ⟨h, -⟩ | ⟨-, h⟩
    · exact ⟨p, h, hp⟩
    · exact ⟨q, h, hq⟩
    · obtain ⟨s, hs, hred⟩ := exists_both (r := r) hα hβ hr
        (hα'.exists_narrow (hp.left_mem hα) (hq.left_mem hα))
        (hβ'.exists_narrow (hp.right_mem hβ) (hq.right_mem hβ))
      exact ⟨s, h.trans hs, .inr hred⟩

/-- **What can be built are the reduced pairs and top.** -/
theorem built_iff (hα : LatticeOn C) (hβ : LatticeOn D) (hα' : IteratesOn C) (hβ' : IteratesOn D)
    (hr : r.Interior C D) : Built C D p ↔ ReducedOrTop C D p := by
  have hlattice : LatticeOrder (ReducedOrTop C D : ReducedProduct r → Prop) ComponentsBelow :=
    latticeOrder hα hβ hr
  have hiterates : IteratesOn (ReducedOrTop C D : ReducedProduct r → Prop) :=
    iteratesOn hα hβ hα' hβ' hr
  refine ⟨fun h => ?_, fun h => ?_⟩
  · induction h with
    | top => exact hlattice.top_mem
    | bottom => exact hlattice.bottom_mem
    | pair ha hb hp =>
      obtain ⟨p', hp', hred⟩ := exists_pair (r := r) hα hβ hr ha hb
      exact Except.ok.inj (hp'.symm.trans hp) ▸ .inr hred.mem
    | join _ _ hs ihp ihq => exact (hlattice.isJoin_of_join ihp ihq hs).mem
    | meet _ _ hs ihp ihq => exact (hlattice.isMeet_of_meet ihp ihq hs).mem
    | widen _ _ hs ihp ihq =>
      obtain ⟨s', hs', hmem⟩ := hiterates.exists_widen ihp ihq
      exact Except.ok.inj (hs'.symm.trans hs) ▸ hmem
    | narrow _ _ hs ihp ihq =>
      obtain ⟨s', hs', hmem⟩ := hiterates.exists_narrow ihp ihq
      exact Except.ok.inj (hs'.symm.trans hs) ▸ hmem
  · rcases h with rfl | h
    · exact .top
    · exact .pair h.left_mem h.right_mem h.pair_eq

/-- A product with the componentwise order decides it. -/
theorem leqDecides (hα : LatticeOn C) (hβ : LatticeOn D) (hleq : r.leq = componentwise) :
    LeqDecides (ReducedOrTop C D : ReducedProduct r → Prop) ComponentsBelow := by
  refine (orderOn hα hβ).leqDecides_of_proper fun {p q} hp hq _ => ?_
  show ∃ x, r.leq (p.left, p.right) (q.left, q.right) = .ok x ∧ _
  rw [hleq]
  exact componentwise_spec hα hβ (hp.left_mem hα) (hq.left_mem hα) (hp.right_mem hβ)
    (hq.right_mem hβ)

/-- **Reduced products are lattices** if their components are and the reduction is well-behaved. On
all pairs that are built from reduced pairs, top and bottom by the operations, no operation fails,
the order is a partial order with bottom and top at its ends, and joins and meets are its bounds.
The reduction may still sharpen top. -/
theorem lattice_of_wellBehaved (hα : LatticeOn C) (hβ : LatticeOn D) (hα' : IteratesOn C)
    (hβ' : IteratesOn D) (hr : r.WellBehaved C D) (hleq : r.leq = componentwise) :
    LatticeOn (Built C D : ReducedProduct r → Prop) ∧
      IteratesOn (Built C D : ReducedProduct r → Prop) ∧
      ∀ a b, C a → D b → ∃ p : ReducedProduct r, pair a b = .ok p ∧ Built C D p := by
  have hbuilt : (Built C D : ReducedProduct r → Prop) = ReducedOrTop C D :=
    funext fun p => propext (built_iff hα hβ hα' hβ' hr.interior)
  refine ⟨?_, ?_, fun a b ha hb => ?_⟩
  · rw [hbuilt]
    exact (latticeOrder hα hβ hr.interior).latticeOn (leqDecides hα hβ hleq)
  · rw [hbuilt]
    exact iteratesOn hα hβ hα' hβ' hr.interior
  · obtain ⟨p, hp, -⟩ := exists_pair (r := r) hα hβ hr.interior ha hb
    exact ⟨p, hp, .pair ha hb hp⟩

end ReducedProduct

/-! ## A reduction that sharpens top -/

/-- The signs and parities of numbers that are known not to be negative. -/
def unsigned : Reduction Sign Parity where
  reduce s p := do return (← meet s .zeroPlus, p)

theorem unsigned_reduce (s : Sign) (p : Parity) :
    ∃ t, unsigned.reduce s p = .ok (t, p) ∧ IsMeet (fun _ => True) Below s .zeroPlus t := by
  obtain ⟨t, ht, hmeet⟩ := Sign.latticeOn.exists_meet (a := s) (b := .zeroPlus) trivial trivial
  refine ⟨t, ?_, hmeet⟩
  show (meet s .zeroPlus >>= fun t => pure (t, p)) = .ok (t, p)
  rw [ht]
  rfl

theorem unsigned_wellBehaved : unsigned.WellBehaved (fun _ => True) fun _ => True where
  exists_reduce {s p} _ _ := by
    obtain ⟨t, ht, -⟩ := unsigned_reduce s p
    exact ⟨(t, p), ht, trivial, trivial⟩
  reductive {s p c} _ _ hc := by
    obtain ⟨t, ht, hmeet⟩ := unsigned_reduce s p
    obtain rfl := Except.ok.inj (ht.symm.trans hc)
    exact ⟨hmeet.left, below_self p⟩
  monotone {s p s' p' c c'} _ _ _ _ hs hp hc hc' := by
    obtain ⟨t, ht, hmeet⟩ := unsigned_reduce s p
    obtain ⟨t', ht', hmeet'⟩ := unsigned_reduce s' p'
    obtain rfl := Except.ok.inj (ht.symm.trans hc)
    obtain rfl := Except.ok.inj (ht'.symm.trans hc')
    exact ⟨hmeet'.greatest trivial (Sign.latticeOn.trans trivial trivial trivial hmeet.left hs)
      hmeet.right, hp⟩
  idempotent {s p c} _ _ hc := by
    obtain ⟨t, ht, hmeet⟩ := unsigned_reduce s p
    obtain rfl := Except.ok.inj (ht.symm.trans hc)
    obtain ⟨t', ht', hmeet'⟩ := unsigned_reduce t p
    have htt : t' = t := Sign.latticeOn.antisymm trivial trivial hmeet'.left
      (hmeet'.greatest trivial (below_self t) hmeet.right)
    rw [ht', htt]

/-- Signs and parities form a lattice under a reduction that moves top down, and so do their
reduced pairs together with another parity. -/
theorem ReducedProduct.lattice_of_wellBehaved_unsigned :
    (pair .top .top : Analysis (ReducedProduct unsigned)) = .ok ⟨.zeroPlus, .top⟩ ∧
    LatticeOn (Built (fun _ => True) (fun _ => True) : ReducedProduct unsigned → Prop) ∧
    LatticeOn (Built (Built (fun _ => True) (fun _ => True)) (fun _ => True) :
      PlainProduct (ReducedProduct unsigned) Parity → Prop) := by
  obtain ⟨hlattice, hiterates, -⟩ := lattice_of_wellBehaved Sign.latticeOn Parity.latticeOn
    Sign.iteratesOn Parity.iteratesOn unsigned_wellBehaved rfl
  exact ⟨rfl, hlattice, (lattice_of_wellBehaved hlattice Parity.latticeOn hiterates
    Parity.iteratesOn Reduction.none_wellBehaved rfl).1⟩

end AbstractDomains
