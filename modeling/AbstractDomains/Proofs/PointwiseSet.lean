import AbstractDomains.Proofs.PointwiseLattice

/-!
# Setting keys

A key that is set to a value reads as that value and all others read as before, so different keys
can be set in any order. A canonical map stays canonical: setting a key to something lower moves it
down, and setting a key to what it reads changes nothing.

Results:
* `Pointwise.Canonical.set`, `Pointwise.Canonical.forget`: maps stay canonical.
* `Pointwise.set_eq_bottom_iff`, `Pointwise.get?_set`, `Pointwise.read_set`: whether a state is
  left, and what is stored and read in it then.
* `Pointwise.set_comm`: different keys are set in any order.
* `Pointwise.Canonical.set_read`, `Pointwise.readsBelow_set`: setting a key to what it reads, or to
  something lower.
-/

namespace AbstractDomains.Pointwise

variable {κ α : Type} [Ord κ] [DecidableEq α] [AbstractLattice α] {P : α → Prop} {R : α → α → Prop}
  {s t : Pointwise κ α} {k : κ} {a : α}

section

variable [Std.TransOrd κ]

theorem set_eq_bottom_iff : s.set k a = bottom ↔ s = bottom ∨ isBottom a = true := by
  cases s with
  | bottom => exact iff_of_true rfl (.inl rfl)
  | entries m =>
    unfold set
    by_cases hb : isBottom a = true
    · simp [hb]
    · by_cases htop : isTop a = true
      · simp [hb, htop]
      · simp [hb, htop]

end

variable [DecidableEq κ] [Std.LawfulEqOrd κ]

theorem Canonical.forget (hs : Canonical P s) : Canonical P (s.forget k) := by
  cases s with
  | bottom => exact hs
  | entries m =>
    intro k' b hb
    rw [FinMap.get?_erase] at hb
    split at hb
    · exact absurd hb.symm (Option.some_ne_none b)
    · exact hs k' b hb

variable [Std.TransOrd κ]

theorem Canonical.set (h : OrderOn P R) (hs : Canonical P s) (ha : P a) :
    Canonical P (s.set k a) := by
  cases s with
  | bottom => exact hs
  | entries m =>
    simp only [Pointwise.set]
    split
    · trivial
    rename_i hbot
    split
    · exact hs.forget
    · rename_i htop
      intro k' b hb
      rw [FinMap.get?_insert] at hb
      split at hb
      · obtain rfl := Option.some.inj hb
        exact ⟨ha, fun hb => htop ((h.isTop_iff ha).mpr hb),
          fun hb => hbot ((h.isBottom_iff ha).mpr hb)⟩
      · exact hs k' b hb

/-- What is stored after a key was set: nothing under that key if it was set to top. -/
theorem get?_set (hs : s ≠ bottom) (hb : isBottom a = false) (k' : κ) :
    (s.set k a).get? k' =
      if k' = k then if isTop a = true then none else some a else s.get? k' := by
  by_cases hk : k' = k
  · subst hk
    cases s with
    | bottom => exact absurd rfl hs
    | entries m =>
      unfold set
      rw [hb, if_pos rfl]
      by_cases htop : isTop a = true
      · simp [htop, get?, FinMap.get?_erase]
      · simp [htop, get?, FinMap.get?_insert]
  · rw [if_neg hk]
    exact get?_set_of_ne hk hb

omit [DecidableEq α] [AbstractLattice α] [DecidableEq κ] in
/-- States are told apart by what is stored. -/
theorem ext_get? (hs : s ≠ bottom) (ht : t ≠ bottom) (h : ∀ k, s.get? k = t.get? k) : s = t := by
  cases s with
  | bottom => exact absurd rfl hs
  | entries m =>
    cases t with
    | bottom => exact absurd rfl ht
    | entries n => exact congrArg entries (FinMap.ext_get? h)

/-- **Different keys are set in any order.** -/
theorem set_comm {k' : κ} (hk : k ≠ k') (s : Pointwise κ α) (a b : α) :
    (s.set k a).set k' b = (s.set k' b).set k a := by
  by_cases hempty : s = bottom ∨ isBottom a = true ∨ isBottom b = true
  · -- then no state is left in either order
    have hleft : (s.set k a).set k' b = bottom := by
      rw [set_eq_bottom_iff, set_eq_bottom_iff, or_assoc]
      exact hempty
    have hright : (s.set k' b).set k a = bottom := by
      rw [set_eq_bottom_iff, set_eq_bottom_iff, or_assoc]
      exact hempty.imp_right Or.symm
    rw [hleft, hright]
  · simp only [not_or, Bool.not_eq_true] at hempty
    obtain ⟨hs, ha, hb⟩ := hempty
    have hset : ∀ {k : κ} {a : α}, isBottom a = false → s.set k a ≠ bottom := fun ha => by
      simp [set_eq_bottom_iff, hs, ha]
    refine ext_get? ?_ ?_ fun k₀ => ?_
    · simp [set_eq_bottom_iff, hset ha, hb]
    · simp [set_eq_bottom_iff, hset hb, ha]
    · rw [get?_set (hset ha) hb, get?_set hs ha, get?_set (hset hb) ha, get?_set hs hb]
      by_cases hka : k₀ = k
      · simp [hka, hk]
      · simp [hka]

omit [DecidableEq κ] [Std.LawfulEqOrd κ] [Std.TransOrd κ] in
theorem read_eq_getD (hs : s ≠ bottom) (k : κ) : s.read k = (s.get? k).getD top := by
  cases s with
  | bottom => exact absurd rfl hs
  | entries m => rfl

/-- What is read after a key was set. -/
theorem read_set (hs : s ≠ bottom) (htop : isTop a = true → a = top) (hb : isBottom a = false)
    (k' : κ) : (s.set k a).read k' = if k' = k then a else s.read k' := by
  have hset : s.set k a ≠ bottom := by simp [set_eq_bottom_iff, hs, hb]
  rw [read_eq_getD hset, read_eq_getD hs, get?_set hs hb]
  by_cases hk : k' = k
  · rw [if_pos hk, if_pos hk]
    split
    · rename_i h
      exact (htop h).symm
    · rfl
  · rw [if_neg hk, if_neg hk]

theorem read_set_self (h : OrderOn P R) (hs : s ≠ bottom) (ha : P a) (hb : isBottom a = false) :
    (s.set k a).read k = a := by
  rw [read_set hs (h.isTop_iff ha).mp hb, if_pos rfl]

/-- Setting a key to what it reads changes nothing. -/
theorem Canonical.set_read (h : OrderOn P R) (hs : Canonical P s) (k : κ) :
    s.set k (s.read k) = s := by
  by_cases hne : s = bottom
  · subst hne
    rfl
  · have hmem := hs.read_mem h k
    have hb : isBottom (s.read k) = false := h.isBottom_eq_false hmem (hs.read_ne_bottom h hne k)
    have hset : s.set k (s.read k) ≠ bottom := by simp [set_eq_bottom_iff, hne, hb]
    refine (hs.set h hmem).eq_of_read hs hset hne fun k' => ?_
    by_cases hk : k' = k
    · subst hk
      exact read_set_self h hne hmem hb
    · exact read_set_of_ne hk hb

/-- **Setting a key to something lower** moves a canonical map down. -/
theorem readsBelow_set (h : OrderOn P R) (hs : Canonical P s) (ha : P a) (hak : R a (s.read k)) :
    ReadsBelow R (s.set k a) s := by
  refine or_iff_not_imp_left.mpr fun hset => ?_
  obtain ⟨hne, hb⟩ := not_or.mp (mt set_eq_bottom_iff.mpr hset)
  rw [Bool.not_eq_true] at hb
  refine ⟨hne, fun k' => ?_⟩
  by_cases hk : k' = k
  · rw [hk, read_set_self h hne ha hb]
    exact hak
  · rw [read_set_of_ne hk hb]
    exact h.refl (hs.read_mem h k')

end AbstractDomains.Pointwise
