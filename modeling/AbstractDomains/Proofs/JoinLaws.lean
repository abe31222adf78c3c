import AbstractDomains.Proofs.LatticeLaws

/-!
# The laws of joins

`JoinLaws C` asks of joins on the elements in `C` that they succeed, commute and associate. Every
lattice settles it trivially what an element joined with itself, with bottom or with top is, so the
elements in `C` are a join semilattice then. They are in order if joining the first one to the
second one changes nothing, and joins are the least upper bounds in that order. Conversely, joins
that are the bounds of some order obey the laws.

Results:
* `JoinLaws.bottom_join`, `JoinLaws.top_join`: bottom is neutral, top absorbs.
* `JoinLaws.joinOrder`, `JoinOrder.joinLaws`: joins with the laws are those that are bounds.
* `JoinOrder.exists_joinAll`: the join of many elements is below what all of them are below.
-/

namespace AbstractDomains

variable {α : Type} [DecidableEq α] [AbstractLattice α]

/-- Joins of elements in `C` succeed and stay there, and it does not matter in which order they are
taken. -/
structure JoinLaws (C : α → Prop) : Prop where
  bottom_mem : C bottom
  top_mem : C top
  isBottom_bottom : isBottom (bottom : α) = true
  isTop_top : isTop (top : α) = true
  exists_join : ∀ {a b}, C a → C b → ∃ c, join a b = .ok c ∧ C c
  comm : ∀ {a b}, C a → C b → join a b = join b a
  assoc : ∀ {a b c}, C a → C b → C c → (do join (← join a b) c) = (do join a (← join b c))

/-- The join of the listed elements. -/
def joinAll (l : List α) : Analysis α :=
  l.foldlM join bottom

variable {C : α → Prop} {R : α → α → Prop} {a b c x y : α}

theorem join_of_isBottom_right (hb : isBottom b = true) : join a b = .ok a := by
  simp [join, AbstractLattice.upward, hb]

theorem join_of_isTop_left (ha : isTop a = true) : join a b = .ok a := by
  simp [join, AbstractLattice.upward, ha]

namespace JoinLaws

theorem bottom_join (h : JoinLaws C) (ha : C a) : join bottom a = .ok a := by
  rw [h.comm h.bottom_mem ha]
  exact join_of_isBottom_right h.isBottom_bottom

theorem top_join (h : JoinLaws C) : join top a = .ok top :=
  join_of_isTop_left h.isTop_top

theorem eq_bottom (h : JoinLaws C) (ha : C a) (hb : isBottom a = true) : a = bottom := by
  have hbottom : join bottom a = .ok bottom := join_of_isBottom_right hb
  exact Except.ok.inj ((h.bottom_join ha).symm.trans hbottom)

theorem eq_top (h : JoinLaws C) (ha : C a) (htop : isTop a = true) : a = top := by
  have hleft : join a top = .ok a := join_of_isTop_left htop
  rw [h.comm ha h.top_mem, h.top_join] at hleft
  exact (Except.ok.inj hleft).symm

/-- Bottom and top are distinct as soon as there is anything else. -/
theorem bottom_ne_top (h : JoinLaws C) (ha : C a) (hne : a ≠ bottom) : (bottom : α) ≠ top := by
  intro heq
  have hbottom : join bottom a = .ok bottom := by rw [heq, h.top_join]
  exact hne (Except.ok.inj ((h.bottom_join ha).symm.trans hbottom))

/-- If they are not, there is nothing else. -/
theorem eq_bottom_of_trivial (h : JoinLaws C) (heq : (bottom : α) = top) (ha : C a) : a = bottom :=
  Decidable.byContradiction fun hne => h.bottom_ne_top ha hne heq

theorem assoc_of_ok (h : JoinLaws C) (ha : C a) (hb : C b) (hc : C c) (hx : join a b = .ok x)
    (hy : join b c = .ok y) : join x c = join a y := by
  have hassoc := h.assoc ha hb hc
  rw [hx, hy] at hassoc
  exact hassoc

/-- **Joins with the laws are least upper bounds** in the order in which an element is below those
that absorb it. -/
theorem joinOrder (h : JoinLaws C) (hne : (bottom : α) ≠ top) :
    JoinOrder C fun a b => join a b = .ok b where
  bottom_mem := h.bottom_mem
  top_mem := h.top_mem
  bottom_ne_top := hne
  isBottom_iff ha := ⟨h.eq_bottom ha, fun hab => hab ▸ h.isBottom_bottom⟩
  isTop_iff ha := ⟨h.eq_top ha, fun hab => hab ▸ h.isTop_top⟩
  refl _ := join_self _
  antisymm ha hb hab hba := by
    rw [h.comm ha hb, hba] at hab
    exact Except.ok.inj hab
  trans ha hb hc hab hbc := (h.assoc_of_ok ha hb hc hab hbc).symm.trans hbc
  bottom_le ha := h.bottom_join ha
  le_top ha := (h.comm ha h.top_mem).trans h.top_join
  exists_join {a b} ha hb := by
    obtain ⟨c, hc, hmem⟩ := h.exists_join ha hb
    refine ⟨c, hc, hmem, ?_, ?_, fun {d} hd had hbd => ?_⟩
    · calc join a c = join a b := (h.assoc_of_ok ha ha hb (join_self a) hc).symm
        _ = .ok c := hc
    · calc join b c = join c b := h.comm hb hmem
        _ = join a b := h.assoc_of_ok ha hb hb hc (join_self b)
        _ = .ok c := hc
    · calc join c d = join a d := h.assoc_of_ok ha hb hd hc hbd
        _ = .ok d := had

end JoinLaws

namespace JoinOrder

/-- **Joins that are least upper bounds obey the laws.** -/
theorem joinLaws (h : JoinOrder C R) : JoinLaws C where
  bottom_mem := h.bottom_mem
  top_mem := h.top_mem
  isBottom_bottom := (h.isBottom_iff h.bottom_mem).mpr rfl
  isTop_top := (h.isTop_iff h.top_mem).mpr rfl
  exists_join ha hb := by
    obtain ⟨c, hc, hjoin⟩ := h.exists_join ha hb
    exact ⟨c, hc, hjoin.mem⟩
  comm {a b} ha hb := by
    obtain ⟨x, hx, hab⟩ := h.exists_join ha hb
    obtain ⟨y, hy, hba⟩ := h.exists_join hb ha
    have hxy : x = y := h.eq_of_below_iff hab.mem hba.mem fun {d} hd => by
      rw [hab.below_iff h.toOrderOn ha hb hd, hba.below_iff h.toOrderOn hb ha hd, and_comm]
    rw [hx, hy, hxy]
  assoc {a b c} ha hb hc := by
    obtain ⟨ab, hab, hjoin₁⟩ := h.exists_join ha hb
    obtain ⟨bc, hbc, hjoin₂⟩ := h.exists_join hb hc
    obtain ⟨x, hx, hleft⟩ := h.exists_join hjoin₁.mem hc
    obtain ⟨y, hy, hright⟩ := h.exists_join ha hjoin₂.mem
    have hxy : x = y := h.eq_of_below_iff hleft.mem hright.mem fun {d} hd => by
      rw [hleft.below_iff h.toOrderOn hjoin₁.mem hc hd, hjoin₁.below_iff h.toOrderOn ha hb hd,
        hright.below_iff h.toOrderOn ha hjoin₂.mem hd, hjoin₂.below_iff h.toOrderOn hb hc hd,
        and_assoc]
    rw [hab, hbc]
    show join ab c = join a bc
    rw [hx, hy, hxy]

/-- What is below the same elements as two others together is their join. -/
theorem join_eq_of_below_iff (h : JoinOrder C R) (ha : C a) (hb : C b) (hc : C c)
    (hiff : ∀ {d}, C d → (R c d ↔ R a d ∧ R b d)) : join a b = .ok c := by
  obtain ⟨x, hx, hjoin⟩ := h.exists_join ha hb
  have hxc : x = c := h.eq_of_below_iff hjoin.mem hc fun {d} hd => by
    rw [hjoin.below_iff h.toOrderOn ha hb hd, hiff hd]
  rw [hx, hxc]

/-! ## Joins of many elements -/

theorem exists_foldlM_join (h : JoinOrder C R) :
    ∀ {l : List α}, (∀ a ∈ l, C a) → ∀ {b}, C b →
      ∃ c, l.foldlM join b = .ok c ∧ C c ∧ ∀ {d}, C d → (R c d ↔ R b d ∧ ∀ a ∈ l, R a d)
  | [], _, b, hb => ⟨b, rfl, hb, by simp⟩
  | a :: l, hl, b, hb => by
    have ha : C a := hl a List.mem_cons_self
    obtain ⟨x, hx, hjoin⟩ := h.exists_join hb ha
    obtain ⟨c, hc, hmem, hbelow⟩ :=
      exists_foldlM_join h (fun a ha => hl a (List.mem_cons_of_mem _ ha)) hjoin.mem
    refine ⟨c, ?_, hmem, fun {d} hd => ?_⟩
    · rw [List.foldlM_cons, hx]
      exact hc
    · rw [hbelow hd, hjoin.below_iff h.toOrderOn hb ha hd, List.forall_mem_cons, and_assoc]

/-- **The join of many elements** is below what all of them are below. -/
theorem exists_joinAll (h : JoinOrder C R) {l : List α} (hl : ∀ a ∈ l, C a) :
    ∃ c, joinAll l = .ok c ∧ C c ∧ ∀ {d}, C d → (R c d ↔ ∀ a ∈ l, R a d) := by
  obtain ⟨c, hc, hmem, hbelow⟩ := exists_foldlM_join h hl h.bottom_mem
  exact ⟨c, hc, hmem, fun hd => (hbelow hd).trans (and_iff_right (h.bottom_le hd))⟩

end JoinOrder

end AbstractDomains
