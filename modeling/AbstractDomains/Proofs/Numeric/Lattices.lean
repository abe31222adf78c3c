import AbstractDomains.Proofs.LatticeLaws
import AbstractDomains.Proofs.Numeric.Parities
import AbstractDomains.Proofs.Numeric.Signs

/-!
# Signs and parities are lattices

The order of signs is inclusion of the numbers they stand for, so its laws and those of meets are
read off the sides of zero a sign includes (`Sign.has`). Parities are a flat lattice.

Results:
* `Sign.latticeOn`, `Parity.latticeOn`: all signs and all parities.
-/

namespace AbstractDomains

namespace Sign

variable {s t u : Sign}

/-- **The order of signs is inclusion.** -/
theorem below_iff : s.below t = true ↔ ∀ x, s.has x = true → t.has x = true := by
  cases s <;> cases t <;> decide

theorem has_injective (h : ∀ x, s.has x = t.has x) : s = t := by
  revert h
  cases s <;> cases t <;> decide

theorem has_of_meetProper {x : SignType} (h : (meetProper s t).has x = true) :
    s.has x = true ∧ t.has x = true := by
  revert h
  cases s <;> cases t <;> decide +revert

/-- No sign includes both sides of zero but top, so joins need not be inclusions of unions. -/
theorem joinProper_below (hne : s ≠ t) (hs : s ≠ bottom) (ht : t ≠ bottom)
    (hsu : s.below u = true) (htu : t.below u = true) : (joinProper s t).below u = true := by
  revert hne hs ht hsu htu
  cases s <;> cases t <;> cases u <;> decide

theorem orderOn : OrderOn (fun _ : Sign => True) fun s t => s.below t = true where
  bottom_mem := trivial
  top_mem := trivial
  bottom_ne_top := nofun
  isBottom_iff _ := decide_eq_true_iff
  isTop_iff _ := decide_eq_true_iff
  refl _ := below_iff.mpr fun _ hx => hx
  antisymm _ _ hst hts := has_injective fun x =>
    Bool.eq_iff_iff.mpr ⟨below_iff.mp hst x, below_iff.mp hts x⟩
  trans _ _ _ hst htu := below_iff.mpr fun x hx => below_iff.mp htu x (below_iff.mp hst x hx)
  bottom_le _ := below_iff.mpr fun _ hx => nomatch hx
  le_top _ := below_iff.mpr fun _ _ => rfl

theorem latticeOrder : LatticeOrder (fun _ : Sign => True) fun s t => s.below t = true := by
  refine .of_proper orderOn (fun {s t} _ _ hst => ⟨_, rfl, trivial, ?_, ?_, ?_⟩)
    (fun {s t} _ _ hst => ⟨_, rfl, trivial, ?_, ?_, ?_⟩)
  · exact below_iff.mpr fun x hx => has_joinProper (.inl hx)
  · exact below_iff.mpr fun x hx => has_joinProper (.inr hx)
  · intro u _ hsu htu
    exact joinProper_below hst.ne (of_decide_eq_false hst.left_bottom)
      (of_decide_eq_false hst.right_bottom) hsu htu
  · exact below_iff.mpr fun x hx => (has_of_meetProper hx).1
  · exact below_iff.mpr fun x hx => (has_of_meetProper hx).2
  · intro u _ hus hut
    exact below_iff.mpr fun x hx => has_meetProper hst.ne (of_decide_eq_false hst.left_top)
      (of_decide_eq_false hst.right_top) (below_iff.mp hus x hx) (below_iff.mp hut x hx)

theorem leqDecides : LeqDecides (fun _ : Sign => True) fun s t => s.below t = true :=
  fun {s t} _ _ => ⟨s.below t, leq_eq_below s t, Iff.rfl⟩

/-- **Signs are a lattice.** -/
theorem latticeOn : LatticeOn fun _ : Sign => True :=
  latticeOrder.latticeOn leqDecides

theorem iteratesOn : IteratesOn fun _ : Sign => True where
  exists_widen ha hb := (latticeOrder.exists_join ha hb).imp fun _ hc => ⟨hc.1, trivial⟩
  exists_narrow ha hb := (latticeOrder.exists_meet ha hb).imp fun _ hc => ⟨hc.1, trivial⟩

end Sign

namespace Parity

/-- The flat order: equal parities, and all between bottom and top. -/
def IsBelow (p q : Parity) : Prop :=
  p = q ∨ p = bottom ∨ q = top

instance (p q : Parity) : Decidable (p.IsBelow q) :=
  inferInstanceAs (Decidable (_ ∨ _))

theorem orderOn : OrderOn (fun _ => True) IsBelow where
  bottom_mem := trivial
  top_mem := trivial
  bottom_ne_top := nofun
  isBottom_iff _ := decide_eq_true_iff
  isTop_iff _ := decide_eq_true_iff
  refl _ := .inl rfl
  antisymm {p q} _ _ hpq hqp := by
    revert hpq hqp
    cases p <;> cases q <;> decide
  trans {p q r} _ _ _ hpq hqr := by
    revert hpq hqr
    cases p <;> cases q <;> cases r <;> decide
  bottom_le _ := .inr (.inl rfl)
  le_top _ := .inr (.inr rfl)

/-- Distinct parities between bottom and top have nothing else in common. -/
theorem extreme_of_proper {p q r : Parity} (hpq : Proper p q) :
    (p.IsBelow r → q.IsBelow r → r = top) ∧ (r.IsBelow p → r.IsBelow q → r = bottom) ∧
      ¬ p.IsBelow q := by
  obtain ⟨hpb, hqb, hpt, hqt, hne⟩ := hpq
  revert hpb hqb hpt hqt hne
  cases p <;> cases q <;> cases r <;> decide

theorem latticeOrder : LatticeOrder (fun _ => True) IsBelow := by
  refine .of_proper orderOn
    (fun _ _ hpq => ⟨top, rfl, trivial, .inr (.inr rfl), .inr (.inr rfl), ?_⟩)
    (fun _ _ hpq => ⟨bottom, rfl, trivial, .inr (.inl rfl), .inr (.inl rfl), ?_⟩)
  · intro r _ hpr hqr
    exact .inr (.inr ((extreme_of_proper hpq).1 hpr hqr))
  · intro r _ hrp hrq
    exact .inr (.inl ((extreme_of_proper hpq).2.1 hrp hrq))

theorem leqDecides : LeqDecides (fun _ => True) IsBelow :=
  orderOn.leqDecides_of_proper fun {p _} _ _ hpq =>
    ⟨false, rfl, iff_of_false Bool.false_ne_true (extreme_of_proper (r := p) hpq).2.2⟩

/-- **Parities are a lattice.** -/
theorem latticeOn : LatticeOn fun _ : Parity => True :=
  latticeOrder.latticeOn leqDecides

theorem iteratesOn : IteratesOn fun _ : Parity => True where
  exists_widen ha hb := (latticeOrder.exists_join ha hb).imp fun _ hc => ⟨hc.1, trivial⟩
  exists_narrow ha hb := (latticeOrder.exists_meet ha hb).imp fun _ hc => ⟨hc.1, trivial⟩

end Parity

end AbstractDomains
