import AbstractDomains.Proofs.Concretization

/-!
# Laws of lattices

An abstract lattice can hold more elements than an analysis ever builds, and the laws of a lattice
are about those it does. `LatticeOrder C R` says that on the elements in `C`, which is closed under
them, join and meet are the least upper and the greatest lower bound for the order `R`, and
`JoinOrder C R` says so of joins alone. The order that the lattice decides is `Below`; it need not
be `R`. If it is, then `C` is a lattice in its own right (`LatticeOn C`).

Results:
* `JoinOrder.of_proper`, `LatticeOrder.of_proper`, `OrderOn.leqDecides_of_proper`: what is left to
  show, the trivial cases apart.
* `OrderOn.eq_of_below_iff`, `IsJoin.below_iff`: elements with the same bounds are equal, and the
  bounds of a join are those of both operands.
* `LatticeOrder.join_eq_right_iff`: an element is below another one iff joining it changes nothing.
* `LatticeOrder.latticeOn`: a lattice that decides the order of its joins and meets.
-/

namespace AbstractDomains

variable {α : Type} [DecidableEq α] [AbstractLattice α]

/-- The first element is below the second one, as the lattice decides it. -/
def Below (a b : α) : Prop :=
  leq a b = .ok true

theorem below_self (a : α) : Below a a :=
  leq_self a

theorem below_of_isBottom {a b : α} (h : isBottom a = true) : Below a b :=
  if_pos (by simp [h])

theorem below_of_isTop {a b : α} (h : isTop b = true) : Below a b :=
  if_pos (by simp [h])

theorem join_self (a : α) : join a a = .ok a := by
  simp [join, AbstractLattice.upward]

theorem meet_self (a : α) : meet a a = .ok a := by
  simp [meet, AbstractLattice.downward]

variable (C : α → Prop) (R : α → α → Prop)

/-- `c` is the least element in `C` above `a` and `b`. -/
structure IsJoin (a b c : α) : Prop where
  mem : C c
  left : R a c
  right : R b c
  least : ∀ {d}, C d → R a d → R b d → R c d

/-- `c` is the greatest element in `C` below `a` and `b`. -/
structure IsMeet (a b c : α) : Prop where
  mem : C c
  left : R c a
  right : R c b
  greatest : ∀ {d}, C d → R d a → R d b → R d c

/-- `R` is a partial order on the elements in `C`. Bottom and top, and they alone, count as such;
they are distinct, and its least and its greatest element. -/
structure OrderOn : Prop where
  bottom_mem : C bottom
  top_mem : C top
  bottom_ne_top : (bottom : α) ≠ top
  isBottom_iff : ∀ {a}, C a → (isBottom a = true ↔ a = bottom)
  isTop_iff : ∀ {a}, C a → (isTop a = true ↔ a = top)
  refl : ∀ {a}, C a → R a a
  antisymm : ∀ {a b}, C a → C b → R a b → R b a → a = b
  trans : ∀ {a b c}, C a → C b → C c → R a b → R b c → R a c
  bottom_le : ∀ {a}, C a → R bottom a
  le_top : ∀ {a}, C a → R a top

/-- Joins never fail on the elements in `C`, and are least upper bounds for the order `R` there. -/
structure JoinOrder : Prop extends OrderOn C R where
  exists_join : ∀ {a b}, C a → C b → ∃ c, join a b = .ok c ∧ IsJoin C R a b c

/-- Join and meet never fail on the elements in `C`, and find the bounds of the order `R` there. -/
structure LatticeOrder : Prop extends OrderOn C R where
  exists_join : ∀ {a b}, C a → C b → ∃ c, join a b = .ok c ∧ IsJoin C R a b c
  exists_meet : ∀ {a b}, C a → C b → ∃ c, meet a b = .ok c ∧ IsMeet C R a b c

/-- The order that the lattice decides is `R`. -/
def LeqDecides : Prop :=
  ∀ {a b}, C a → C b → ∃ x, leq a b = .ok x ∧ (x = true ↔ R a b)

/-- **A lattice**: its order never fails either, and is the one of its joins and meets. -/
structure LatticeOn : Prop extends LatticeOrder C Below where
  leq_succeeds : ∀ {a b}, C a → C b → (leq a b).Succeeds

/-- **A distributive lattice**: joining to a meet is meeting the joins, and the other way round. -/
structure DistributiveOn : Prop extends LatticeOn C where
  join_meet : ∀ {a b c}, C a → C b → C c →
    (do join a (← meet b c)) = (do meet (← join a b) (← join a c))
  meet_join : ∀ {a b c}, C a → C b → C c →
    (do meet a (← join b c)) = (do join (← meet a b) (← meet a c))

/-- Widening and narrowing never fail on the elements in `C` either, and stay among them. -/
structure IteratesOn : Prop where
  exists_widen : ∀ {a b}, C a → C b → ∃ c, widen a b = .ok c ∧ C c
  exists_narrow : ∀ {a b}, C a → C b → ∃ c, narrow a b = .ok c ∧ C c

variable {C R} {R' : α → α → Prop} {a b c d : α}

omit [DecidableEq α] [AbstractLattice α] in
theorem IsJoin.congr (hR : ∀ {a b}, C a → C b → (R a b ↔ R' a b)) (ha : C a) (hb : C b)
    (h : IsJoin C R a b c) : IsJoin C R' a b c where
  mem := h.mem
  left := (hR ha h.mem).mp h.left
  right := (hR hb h.mem).mp h.right
  least hd had hbd := (hR h.mem hd).mp (h.least hd ((hR ha hd).mpr had) ((hR hb hd).mpr hbd))

omit [DecidableEq α] [AbstractLattice α] in
theorem IsMeet.congr (hR : ∀ {a b}, C a → C b → (R a b ↔ R' a b)) (ha : C a) (hb : C b)
    (h : IsMeet C R a b c) : IsMeet C R' a b c where
  mem := h.mem
  left := (hR h.mem ha).mp h.left
  right := (hR h.mem hb).mp h.right
  greatest hd hda hdb := (hR hd h.mem).mp (h.greatest hd ((hR hd ha).mpr hda) ((hR hd hb).mpr hdb))

namespace OrderOn

theorem eq_bottom (h : OrderOn C R) (ha : C a) (hab : R a bottom) : a = bottom :=
  h.antisymm ha h.bottom_mem hab (h.bottom_le ha)

theorem eq_top (h : OrderOn C R) (ha : C a) (hab : R top a) : a = top :=
  h.antisymm ha h.top_mem (h.le_top ha) hab

/-- Elements below the same ones are equal. -/
theorem eq_of_below_iff (h : OrderOn C R) (ha : C a) (hb : C b)
    (hiff : ∀ {d}, C d → (R a d ↔ R b d)) : a = b :=
  h.antisymm ha hb ((hiff hb).mpr (h.refl hb)) ((hiff ha).mp (h.refl ha))

theorem isBottom_eq_false (h : OrderOn C R) (ha : C a) (hne : a ≠ bottom) : isBottom a = false :=
  Bool.eq_false_iff.mpr fun hb => hne ((h.isBottom_iff ha).mp hb)

/-- An operand that is above the other one is their join. -/
theorem isJoin_of_le (h : OrderOn C R) (hb : C b) (hab : R a b) : IsJoin C R a b b :=
  ⟨hb, hab, h.refl hb, fun _ _ hbd => hbd⟩

theorem isJoin_of_ge (h : OrderOn C R) (ha : C a) (hba : R b a) : IsJoin C R a b a :=
  ⟨ha, h.refl ha, hba, fun _ had _ => had⟩

/-- An operand that is below the other one is their meet. -/
theorem isMeet_of_le (h : OrderOn C R) (ha : C a) (hab : R a b) : IsMeet C R a b a :=
  ⟨ha, h.refl ha, hab, fun _ hda _ => hda⟩

theorem isMeet_of_ge (h : OrderOn C R) (hb : C b) (hba : R b a) : IsMeet C R a b b :=
  ⟨hb, hba, h.refl hb, fun _ _ hdb => hdb⟩

/-- **The order is decided** if it is on the operands that are not settled trivially. -/
theorem leqDecides_of_proper (h : OrderOn C R)
    (hproper : ∀ {a b}, C a → C b → Proper a b →
      ∃ x, AbstractLattice.leqProper a b = .ok x ∧ (x = true ↔ R a b)) : LeqDecides C R := by
  intro a b ha hb
  rcases leq_cases a b with ⟨hab, hc⟩ | ⟨hab, hc, hne, hba, htb⟩ | ⟨hp, hab⟩
  · refine ⟨true, hab, iff_of_true rfl ?_⟩
    rcases hc with rfl | hc | hc
    · exact h.refl ha
    · rw [(h.isBottom_iff ha).mp hc]
      exact h.bottom_le hb
    · rw [(h.isTop_iff hb).mp hc]
      exact h.le_top ha
  · refine ⟨false, hab, iff_of_false Bool.false_ne_true fun hR => hne ?_⟩
    rcases hc with hc | hc
    · obtain rfl := (h.isTop_iff ha).mp hc
      exact (h.eq_top hb hR).symm
    · obtain rfl := (h.isBottom_iff hb).mp hc
      exact h.eq_bottom ha hR
  · rw [hab]
    exact hproper ha hb hp

end OrderOn

/-- A join is below what both operands are below. -/
theorem IsJoin.below_iff (h : OrderOn C R) (ha : C a) (hb : C b) (hc : IsJoin C R a b c)
    (hd : C d) : R c d ↔ R a d ∧ R b d :=
  ⟨fun hcd => ⟨h.trans ha hc.mem hd hc.left hcd, h.trans hb hc.mem hd hc.right hcd⟩,
    fun ⟨had, hbd⟩ => hc.least hd had hbd⟩

namespace JoinOrder

/-- **Joins are bounds** if the lattice's own ones are, of the operands they are asked about. -/
theorem of_proper (h : OrderOn C R)
    (hjoin : ∀ {a b}, C a → C b → Proper a b →
      ∃ c, AbstractLattice.joinProper a b = .ok c ∧ IsJoin C R a b c) : JoinOrder C R where
  toOrderOn := h
  exists_join {a b} ha hb := by
    unfold join
    rcases upward_cases AbstractLattice.joinProper a b with
      ⟨hab, hc⟩ | ⟨hab, hc⟩ | ⟨hp, hab⟩
    · refine ⟨a, hab, h.isJoin_of_ge ha ?_⟩
      rcases hc with hc | hc | rfl
      · rw [(h.isBottom_iff hb).mp hc]
        exact h.bottom_le ha
      · rw [(h.isTop_iff ha).mp hc]
        exact h.le_top hb
      · exact h.refl ha
    · refine ⟨b, hab, h.isJoin_of_le hb ?_⟩
      rcases hc with hc | hc
      · rw [(h.isBottom_iff ha).mp hc]
        exact h.bottom_le hb
      · rw [(h.isTop_iff hb).mp hc]
        exact h.le_top ha
    · rw [hab]
      exact hjoin ha hb hp

theorem isJoin_of_join (h : JoinOrder C R) (ha : C a) (hb : C b) (hc : join a b = .ok c) :
    IsJoin C R a b c := by
  obtain ⟨c', hc', hjoin⟩ := h.exists_join ha hb
  exact Except.ok.inj (hc'.symm.trans hc) ▸ hjoin

end JoinOrder

namespace LatticeOrder

/-- Joins alone. -/
theorem joinOrder (h : LatticeOrder C R) : JoinOrder C R where
  toOrderOn := h.toOrderOn
  exists_join := h.exists_join

/-- **Joins and meets are bounds** if the lattice's own operations are, on the operands they are
asked about. -/
theorem of_proper (h : OrderOn C R)
    (hjoin : ∀ {a b}, C a → C b → Proper a b →
      ∃ c, AbstractLattice.joinProper a b = .ok c ∧ IsJoin C R a b c)
    (hmeet : ∀ {a b}, C a → C b → Proper a b →
      ∃ c, AbstractLattice.meetProper a b = .ok c ∧ IsMeet C R a b c) : LatticeOrder C R where
  toOrderOn := h
  exists_join := (JoinOrder.of_proper h hjoin).exists_join
  exists_meet {a b} ha hb := by
    unfold meet
    rcases downward_cases AbstractLattice.meetProper a b with
      ⟨hab, hc⟩ | ⟨hab, hc⟩ | ⟨hp, hab⟩
    · refine ⟨a, hab, h.isMeet_of_le ha ?_⟩
      rcases hc with hc | hc | rfl
      · rw [(h.isTop_iff hb).mp hc]
        exact h.le_top ha
      · rw [(h.isBottom_iff ha).mp hc]
        exact h.bottom_le hb
      · exact h.refl ha
    · refine ⟨b, hab, h.isMeet_of_ge hb ?_⟩
      rcases hc with hc | hc
      · rw [(h.isTop_iff ha).mp hc]
        exact h.le_top hb
      · rw [(h.isBottom_iff hb).mp hc]
        exact h.bottom_le ha
    · rw [hab]
      exact hmeet ha hb hp

theorem isJoin_of_join (h : LatticeOrder C R) (ha : C a) (hb : C b) (hc : join a b = .ok c) :
    IsJoin C R a b c :=
  h.joinOrder.isJoin_of_join ha hb hc

theorem isMeet_of_meet (h : LatticeOrder C R) (ha : C a) (hb : C b) (hc : meet a b = .ok c) :
    IsMeet C R a b c := by
  obtain ⟨c', hc', hmeet⟩ := h.exists_meet ha hb
  exact Except.ok.inj (hc'.symm.trans hc) ▸ hmeet

theorem meet_comm (h : LatticeOrder C R) (ha : C a) (hb : C b) : meet a b = meet b a := by
  obtain ⟨c, hc, hab⟩ := h.exists_meet ha hb
  obtain ⟨d, hd, hba⟩ := h.exists_meet hb ha
  have hcd : R c d := hba.greatest hab.mem hab.right hab.left
  have hdc : R d c := hab.greatest hba.mem hba.right hba.left
  rw [hc, hd, h.antisymm hab.mem hba.mem hcd hdc]

/-- **Joining an element changes nothing** iff it is below already. -/
theorem join_eq_right_iff (h : LatticeOrder C R) (ha : C a) (hb : C b) :
    join a b = .ok b ↔ R a b := by
  refine ⟨fun hab => (h.isJoin_of_join ha hb hab).left, fun hab => ?_⟩
  obtain ⟨c, hc, hjoin⟩ := h.exists_join ha hb
  have hcb : c = b := h.antisymm hjoin.mem hb (hjoin.least hb hab (h.refl hb)) hjoin.right
  rw [hc, hcb]

theorem congr (hR : ∀ {a b}, C a → C b → (R a b ↔ R' a b)) (h : LatticeOrder C R) :
    LatticeOrder C R' where
  bottom_mem := h.bottom_mem
  top_mem := h.top_mem
  bottom_ne_top := h.bottom_ne_top
  isBottom_iff := h.isBottom_iff
  isTop_iff := h.isTop_iff
  refl ha := (hR ha ha).mp (h.refl ha)
  antisymm ha hb hab hba := h.antisymm ha hb ((hR ha hb).mpr hab) ((hR hb ha).mpr hba)
  trans ha hb hc hab hbc :=
    (hR ha hc).mp (h.trans ha hb hc ((hR ha hb).mpr hab) ((hR hb hc).mpr hbc))
  bottom_le ha := (hR h.bottom_mem ha).mp (h.bottom_le ha)
  le_top ha := (hR ha h.top_mem).mp (h.le_top ha)
  exists_join ha hb := by
    obtain ⟨c, hc, hjoin⟩ := h.exists_join ha hb
    exact ⟨c, hc, hjoin.congr hR ha hb⟩
  exists_meet ha hb := by
    obtain ⟨c, hc, hmeet⟩ := h.exists_meet ha hb
    exact ⟨c, hc, hmeet.congr hR ha hb⟩

end LatticeOrder

theorem LeqDecides.below_iff (h : LeqDecides C R) (ha : C a) (hb : C b) : Below a b ↔ R a b := by
  obtain ⟨x, hx, hR⟩ := h ha hb
  rw [← hR]
  exact ⟨fun hab => Except.ok.inj (hx.symm.trans hab), fun hxt => hx.trans (congrArg Except.ok hxt)⟩

/-- **A lattice that decides the order of its joins and meets.** -/
theorem LatticeOrder.latticeOn (h : LatticeOrder C R) (hleq : LeqDecides C R) : LatticeOn C where
  toLatticeOrder := h.congr fun ha hb => (hleq.below_iff ha hb).symm
  leq_succeeds ha hb := by
    obtain ⟨x, hx, -⟩ := hleq ha hb
    exact ⟨x, hx⟩

theorem LatticeOn.leqDecides (h : LatticeOn C) : LeqDecides C Below := by
  intro a b ha hb
  obtain ⟨x, hx⟩ := h.leq_succeeds ha hb
  refine ⟨x, hx, ?_⟩
  unfold Below
  rw [hx, Except.ok.injEq]

end AbstractDomains
