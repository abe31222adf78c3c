import AbstractDomains.Proofs.Pointwise

/-!
# Concretization

A concretization `γ` says which values an abstract value stands for. `JoinSound γ` and
`LatticeSound γ` are what it owes to the lattice operations: each result stands for at least the
values it is meant to cover. `OperationsSound γ` asks the same without a top that stands for every
value.

The values of a pointwise lattice stand for families of values. `Pointwise.Allows γ s k v` says
that a state described by `s` can hold `v` under the key `k`, and `Pointwise.Describes γ s σ` that
`σ` is such a state.

Results:
* `upward_cases`, `downward_cases`, `leq_cases`: what an operation of a lattice does with its
  operands; `upward_inv`, `downward_inv`: how it came to its result.
* `LatticeSound.of_proper`: what is left to show of a lattice, the trivial cases apart.
* `JoinSound.empty`, `JoinSound.full`: the elements that count as bottom or as top.
* `Pointwise.allows_set_self`, `Pointwise.allows_set_of_ne`: a set key holds the new value, and
  every other key what it held before.
* `Pointwise.allows_join`, `Pointwise.allows_widen`, `Pointwise.describes_meet`: the pointwise
  operations are as sound as those of the values.
-/

namespace AbstractDomains

open AbstractLattice (upward downward)

section Laws

variable {α V : Type} [DecidableEq α] [AbstractLattice α]

/-- What a concretization owes to bottom, top and joins. -/
structure JoinSound (γ : α → V → Prop) : Prop where
  not_bottom : ∀ v, ¬ γ bottom v
  top : ∀ v, γ top v
  of_join : ∀ {a b c v}, join a b = .ok c → γ a v ∨ γ b v → γ c v

/-- What a concretization owes to all operations of a lattice. -/
structure LatticeSound (γ : α → V → Prop) : Prop extends JoinSound γ where
  of_widen : ∀ {a b c v}, widen a b = .ok c → γ a v ∨ γ b v → γ c v
  of_meet : ∀ {a b c v}, meet a b = .ok c → γ a v → γ b v → γ c v

/-- The operands that an operation does not settle trivially. -/
structure Proper (a b : α) : Prop where
  left_bottom : isBottom a = false
  right_bottom : isBottom b = false
  left_top : isTop a = false
  right_top : isTop b = false
  ne : a ≠ b

/-- An operation that moves up returns an operand in the trivial cases, or else its own result. -/
theorem upward_cases (proper : α → α → Analysis α) (a b : α) :
    (upward proper a b = .ok a ∧ (isBottom b = true ∨ isTop a = true ∨ a = b)) ∨
      (upward proper a b = .ok b ∧ (isBottom a = true ∨ isTop b = true)) ∨
      (Proper a b ∧ upward proper a b = proper a b) := by
  unfold upward
  split
  · rename_i h
    simp only [Bool.or_eq_true, decide_eq_true_eq, or_assoc] at h
    exact .inl ⟨rfl, h⟩
  · rename_i h
    split
    · rename_i h'
      exact .inr (.inl ⟨rfl, Bool.or_eq_true_iff.mp h'⟩)
    · rename_i h'
      simp only [Bool.not_eq_true, Bool.or_eq_false_iff, decide_eq_false_iff_not] at h h'
      obtain ⟨⟨hb, ha⟩, hne⟩ := h
      exact .inr (.inr ⟨⟨h'.1, hb, ha, h'.2, hne⟩, rfl⟩)

/-- An operation that moves down returns an operand in the trivial cases, or else its own result. -/
theorem downward_cases (proper : α → α → Analysis α) (a b : α) :
    (downward proper a b = .ok a ∧ (isTop b = true ∨ isBottom a = true ∨ a = b)) ∨
      (downward proper a b = .ok b ∧ (isTop a = true ∨ isBottom b = true)) ∨
      (Proper a b ∧ downward proper a b = proper a b) := by
  unfold downward
  split
  · rename_i h
    simp only [Bool.or_eq_true, decide_eq_true_eq, or_assoc] at h
    exact .inl ⟨rfl, h⟩
  · rename_i h
    split
    · rename_i h'
      exact .inr (.inl ⟨rfl, Bool.or_eq_true_iff.mp h'⟩)
    · rename_i h'
      simp only [Bool.not_eq_true, Bool.or_eq_false_iff, decide_eq_false_iff_not] at h h'
      obtain ⟨⟨hb, ha⟩, hne⟩ := h
      exact .inr (.inr ⟨⟨ha, h'.2, h'.1, hb, hne⟩, rfl⟩)

/-- The order holds in the trivial cases, fails under bottom and over top, and is else decided on
the operands. -/
theorem leq_cases (a b : α) :
    (leq a b = .ok true ∧ (a = b ∨ isBottom a = true ∨ isTop b = true)) ∨
      (leq a b = .ok false ∧ (isTop a = true ∨ isBottom b = true) ∧
        a ≠ b ∧ isBottom a = false ∧ isTop b = false) ∨
      (Proper a b ∧ leq a b = AbstractLattice.leqProper a b) := by
  unfold leq
  split
  · rename_i h
    simp only [Bool.or_eq_true, decide_eq_true_eq, or_assoc] at h
    exact .inl ⟨rfl, h⟩
  · rename_i h
    simp only [Bool.not_eq_true, Bool.or_eq_false_iff, decide_eq_false_iff_not] at h
    obtain ⟨⟨hne, ha⟩, hb⟩ := h
    split
    · rename_i h'
      exact .inr (.inl ⟨rfl, Bool.or_eq_true_iff.mp h', hne, ha, hb⟩)
    · rename_i h'
      simp only [Bool.not_eq_true, Bool.or_eq_false_iff] at h'
      exact .inr (.inr ⟨⟨ha, h'.2, h'.1, hb, hne⟩, rfl⟩)

theorem upward_inv {proper : α → α → Analysis α} {a b c : α} (h : upward proper a b = .ok c) :
    (c = a ∧ (isBottom b = true ∨ isTop a = true ∨ a = b)) ∨
      (c = b ∧ (isBottom a = true ∨ isTop b = true)) ∨
      (Proper a b ∧ proper a b = .ok c) := by
  rcases upward_cases proper a b with ⟨hc, htrivial⟩ | ⟨hc, htrivial⟩ | ⟨hab, hc⟩
  · exact .inl ⟨Except.ok.inj (h.symm.trans hc), htrivial⟩
  · exact .inr (.inl ⟨Except.ok.inj (h.symm.trans hc), htrivial⟩)
  · exact .inr (.inr ⟨hab, hc.symm.trans h⟩)

theorem downward_inv {proper : α → α → Analysis α} {a b c : α} (h : downward proper a b = .ok c) :
    (c = a ∧ (isTop b = true ∨ isBottom a = true ∨ a = b)) ∨
      (c = b ∧ (isTop a = true ∨ isBottom b = true)) ∨
      (Proper a b ∧ proper a b = .ok c) := by
  rcases downward_cases proper a b with ⟨hc, htrivial⟩ | ⟨hc, htrivial⟩ | ⟨hab, hc⟩
  · exact .inl ⟨Except.ok.inj (h.symm.trans hc), htrivial⟩
  · exact .inr (.inl ⟨Except.ok.inj (h.symm.trans hc), htrivial⟩)
  · exact .inr (.inr ⟨hab, hc.symm.trans h⟩)

/-- The order fails only between distinct elements, the lower not bottom and the upper not top. -/
theorem leq_eq_false {a b : α} (h : leq a b = .ok false) :
    a ≠ b ∧ isBottom a = false ∧ isTop b = false := by
  rcases leq_cases a b with ⟨htrue, -⟩ | ⟨-, -, hdistinct⟩ | ⟨hab, -⟩
  · exact nomatch h.symm.trans htrue
  · exact hdistinct
  · exact ⟨hab.ne, hab.left_bottom, hab.right_top⟩

theorem Proper.symm {a b : α} (h : Proper a b) : Proper b a :=
  ⟨h.right_bottom, h.left_bottom, h.right_top, h.left_top, h.ne.symm⟩

/-- The trivial cases apart, the order is the lattice's own. -/
theorem Proper.leq_eq {a b : α} (h : Proper a b) : leq a b = AbstractLattice.leqProper a b := by
  unfold leq
  simp only [h.ne, h.left_bottom, h.right_bottom, h.left_top, h.right_top, decide_false,
    Bool.or_false, Bool.false_eq_true, if_false]

theorem leq_self (a : α) : leq a a = .ok true :=
  if_pos (by simp)

variable {γ : α → V → Prop}

/-- An operation that moves up covers both operands if it does in the cases that are not trivial. -/
theorem covers_upward {proper : α → α → Analysis α} {v : V}
    (hempty : ∀ {a}, isBottom a = true → ¬ γ a v) (hfull : ∀ {a}, isTop a = true → γ a v)
    (hproper : ∀ {a b c}, Proper a b → proper a b = .ok c → γ a v ∨ γ b v → γ c v)
    {a b c : α} (h : upward proper a b = .ok c) (hv : γ a v ∨ γ b v) : γ c v := by
  rcases upward_inv h with ⟨rfl, hc⟩ | ⟨rfl, hc⟩ | ⟨hab, h⟩
  · rcases hc with hb | ha | rfl
    · exact hv.resolve_right (hempty hb)
    · exact hfull ha
    · exact hv.elim id id
  · rcases hc with ha | hb
    · exact hv.resolve_left (hempty ha)
    · exact hfull hb
  · exact hproper hab h hv

/-- An operation that moves down keeps what both operands stand for if it does in the cases that
are not trivial. -/
theorem keeps_downward {proper : α → α → Analysis α} {v : V}
    (hproper : ∀ {a b c}, Proper a b → proper a b = .ok c → γ a v → γ b v → γ c v)
    {a b c : α} (h : downward proper a b = .ok c) (ha : γ a v) (hb : γ b v) : γ c v := by
  rcases downward_inv h with ⟨rfl, -⟩ | ⟨rfl, -⟩ | ⟨hab, h⟩
  · exact ha
  · exact hb
  · exact hproper hab h ha hb

/-- **A lattice is sound if its own operations are**, on the operands they are asked about. -/
theorem LatticeSound.of_proper (hempty : ∀ {a : α}, isBottom a = true → a = bottom)
    (hfull : ∀ {a : α}, isTop a = true → a = top) (hbottom : ∀ v, ¬ γ bottom v)
    (htop : ∀ v, γ top v)
    (hjoin : ∀ {a b c v}, Proper a b → AbstractLattice.joinProper a b = .ok c →
      γ a v ∨ γ b v → γ c v)
    (hwiden : ∀ {a b c v}, Proper a b → AbstractLattice.widenProper a b = .ok c →
      γ a v ∨ γ b v → γ c v)
    (hmeet : ∀ {a b c v}, Proper a b → AbstractLattice.meetProper a b = .ok c →
      γ a v → γ b v → γ c v) : LatticeSound γ where
  not_bottom := hbottom
  top := htop
  of_join := covers_upward (fun ha => hempty ha ▸ hbottom _) (fun ha => hfull ha ▸ htop _) hjoin
  of_widen := covers_upward (fun ha => hempty ha ▸ hbottom _) (fun ha => hfull ha ▸ htop _) hwiden
  of_meet := keeps_downward hmeet

/-- Bottom joined with an element that counts as bottom is bottom, so neither stands for a value. -/
theorem not_of_isBottom (hbottom : ∀ v, ¬ γ bottom v)
    (hjoin : ∀ {a b c v}, join a b = .ok c → γ a v ∨ γ b v → γ c v) {a : α} {v : V}
    (h : isBottom a = true) : ¬ γ a v := by
  have hbottom_join : join AbstractLattice.bottom a = .ok bottom := if_pos (by simp [h])
  exact fun hv => hbottom v (hjoin hbottom_join (.inr hv))

theorem JoinSound.empty (hγ : JoinSound γ) {a : α} {v : V} (h : isBottom a = true) : ¬ γ a v :=
  not_of_isBottom hγ.not_bottom hγ.of_join h

/-- An element that counts as top joined with top is left as it is, so it stands for every value. -/
theorem JoinSound.full (hγ : JoinSound γ) {a : α} {v : V} (h : isTop a = true) : γ a v := by
  have hjoin : join a AbstractLattice.top = .ok a := if_pos (by simp [h])
  exact hγ.of_join hjoin (.inr (hγ.top v))

/-- What a concretization owes to bottom and to the operations on two elements. Nothing is asked of
top but that it counts as top, so it need not stand for every value. -/
structure OperationsSound (γ : α → V → Prop) : Prop where
  isTop_top : isTop (AbstractLattice.top : α) = true
  not_bottom : ∀ v, ¬ γ bottom v
  of_join : ∀ {a b c v}, join a b = .ok c → γ a v ∨ γ b v → γ c v
  of_widen : ∀ {a b c v}, widen a b = .ok c → γ a v ∨ γ b v → γ c v
  of_meet : ∀ {a b c v}, meet a b = .ok c → γ a v → γ b v → γ c v

theorem LatticeSound.operationsSound (hγ : LatticeSound γ)
    (htop : isTop (AbstractLattice.top : α) = true) : OperationsSound γ where
  isTop_top := htop
  not_bottom := hγ.not_bottom
  of_join := hγ.of_join
  of_widen := hγ.of_widen
  of_meet := hγ.of_meet

theorem OperationsSound.empty (hγ : OperationsSound γ) {a : α} {v : V} (h : isBottom a = true) :
    ¬ γ a v :=
  not_of_isBottom hγ.not_bottom hγ.of_join h

/-- Top joined with another element is top, so it stands for all that any element stands for. -/
theorem OperationsSound.below_top (hγ : OperationsSound γ) {a : α} {v : V} (h : γ a v) :
    γ AbstractLattice.top v := by
  have htop_join : join AbstractLattice.top a = .ok AbstractLattice.top :=
    if_pos (by simp [hγ.isTop_top])
  exact hγ.of_join htop_join (.inr h)

end Laws

/-! ## Pointwise lattices -/

namespace Pointwise

variable {κ α V : Type} [Ord κ]

/-- Whether a described state can hold a value under a key. -/
def Allows (γ : α → V → Prop) : Pointwise κ α → κ → V → Prop
  | bottom, _, _ => False
  | entries m, k, v => ∀ a, m.get? k = some a → γ a v

/-- The states that are described: each key with an entry holds a value its entry stands for. -/
def Describes (γ : α → V → Prop) : Pointwise κ α → (κ → V) → Prop
  | bottom, _ => False
  | entries m, σ => ∀ k a, m.get? k = some a → γ a (σ k)

variable {γ : α → V → Prop} {s t u : Pointwise κ α} {σ : κ → V} {k : κ} {v : V}

theorem Allows.ne_bottom (h : s.Allows γ k v) : s ≠ bottom := by
  rintro rfl
  exact h

theorem Describes.ne_bottom (h : s.Describes γ σ) : s ≠ bottom := by
  rintro rfl
  exact h

theorem Describes.allows (h : s.Describes γ σ) (k : κ) : s.Allows γ k (σ k) := by
  cases s with
  | bottom => exact h
  | entries m => exact h k

theorem describes_iff [hκ : Nonempty κ] : s.Describes γ σ ↔ ∀ k, s.Allows γ k (σ k) := by
  refine ⟨Describes.allows, fun h => ?_⟩
  obtain ⟨k⟩ := hκ
  cases s with
  | bottom => exact h k
  | entries m => exact h

section Forget

variable [DecidableEq κ] [Std.LawfulEqOrd κ]

/-- A forgotten key can hold anything, and every other key what it could before. -/
theorem allows_forget_of_ne {k' : κ} (hk : k' ≠ k) (h : s.Allows γ k' v) :
    (s.forget k).Allows γ k' v := by
  cases s with
  | bottom => exact h
  | entries m =>
    intro b hb
    rw [FinMap.get?_erase, if_neg hk] at hb
    exact h b hb

theorem allows_forget_self (hs : s ≠ bottom) : (s.forget k).Allows γ k v := by
  cases s with
  | bottom => exact absurd rfl hs
  | entries m =>
    intro b hb
    simp [FinMap.get?_erase] at hb

end Forget

/-- A state is described if it is in each of the listed entries. -/
theorem describes_ofList [DecidableEq κ] [Std.TransOrd κ] [Std.LawfulEqOrd κ] {l : List (κ × α)}
    (h : ∀ e ∈ l, γ e.2 (σ e.1)) : Describes γ (entries (.ofList l)) σ :=
  fun _ _ ha => h _ (FinMap.mem_of_get?_ofList ha)

variable [DecidableEq α] [AbstractLattice α]

/-- What is read under a key stands for all the key can hold. -/
theorem gamma_read (hγ : JoinSound γ) (h : s.Allows γ k v) : γ (s.read k) v := by
  cases s with
  | bottom => exact h.elim
  | entries m =>
    simp only [read]
    cases hm : m.get? k with
    | none => exact hγ.top v
    | some a => exact h a hm

variable [DecidableEq κ] [Std.TransOrd κ]

variable [Std.LawfulEqOrd κ]

theorem allows_of_isTop (hγ : JoinSound γ) (h : isTop s = true) : s.Allows γ k v := by
  cases s with
  | bottom => exact absurd h Bool.false_ne_true
  | entries m =>
    intro a ha
    have h : m.values.all isTop = true := h
    have hmem : a ∈ m.values := List.mem_map.mpr ⟨(k, a), FinMap.mem_entries_iff.mpr ha, rfl⟩
    exact hγ.full (List.all_eq_true.mp h a hmem)

/-! ### Single keys -/

/-- The key that was set can hold what its new value stands for. -/
theorem allows_set_self (hγ : JoinSound γ) {a : α} (hs : s ≠ bottom) (ha : γ a v) :
    (s.set k a).Allows γ k v := by
  cases s with
  | bottom => exact absurd rfl hs
  | entries m =>
    simp only [set]
    split
    · rename_i hb
      exact hγ.empty hb ha
    · split
      · intro b hb
        simp [FinMap.get?_erase] at hb
      · intro b hb
        rw [FinMap.get?_insert, if_pos rfl] at hb
        exact Option.some.inj hb ▸ ha

/-- Every other key can hold what it could before. -/
theorem allows_set_of_ne {a : α} {k' : κ} (hk : k' ≠ k) (ha : isBottom a = false)
    (h : s.Allows γ k' v) : (s.set k a).Allows γ k' v := by
  cases s with
  | bottom => exact h
  | entries m =>
    simp only [set, ha, Bool.false_eq_true, if_false]
    split
    · intro b hb
      rw [FinMap.get?_erase, if_neg hk] at hb
      exact h b hb
    · intro b hb
      rw [FinMap.get?_insert, if_neg hk] at hb
      exact h b hb

/-! ### Operations on all keys -/

omit [Std.LawfulEqOrd κ] in
/-- Operands that are not settled trivially are maps. -/
theorem entries_of_proper (h : Proper s t) : ∃ m n, s = entries m ∧ t = entries n := by
  obtain ⟨m, rfl⟩ := eq_entries_of_isBottom h.left_bottom
  obtain ⟨n, rfl⟩ := eq_entries_of_isBottom h.right_bottom
  exact ⟨m, n, rfl, rfl⟩

/-- An operation that covers both operands does so under every key. -/
theorem allows_upward (hγ : JoinSound γ) {op : α → α → Analysis α}
    (hop : ∀ {a b c}, op a b = .ok c → γ a v ∨ γ b v → γ c v)
    (h : upward (combine op) s t = .ok u) (hv : s.Allows γ k v ∨ t.Allows γ k v) :
    u.Allows γ k v := by
  refine covers_upward (γ := fun s v => s.Allows γ k v)
    (fun hs hv => hv.ne_bottom (isBottom_iff.mp hs)) (allows_of_isTop hγ) ?_ h hv
  intro s t u hst h hv
  obtain ⟨m, n, rfl, rfl⟩ := entries_of_proper hst
  obtain ⟨l, rfl, hl⟩ := combine_inv h
  intro c hc
  -- only keys of both maps are kept, and of those only the ones that are not top
  cases hm : m.get? k with
  | none => exact nomatch (hl.of_left hm).symm.trans hc
  | some a =>
    cases hn : n.get? k with
    | none => exact nomatch (hl.of_right hn).symm.trans hc
    | some b =>
      obtain ⟨x, hx, hk⟩ := hl.of_both hm hn
      rw [hk] at hc
      split at hc
      · exact nomatch hc
      · exact Option.some.inj hc ▸ hop hx (hv.imp (· a hm) (· b hn))

/-- **Joins cover both operands** under every key. -/
theorem allows_join (hγ : JoinSound γ) (h : join s t = .ok u)
    (hv : s.Allows γ k v ∨ t.Allows γ k v) : u.Allows γ k v :=
  allows_upward hγ hγ.of_join h hv

/-- **Widening covers both operands** under every key. -/
theorem allows_widen (hγ : LatticeSound γ) (h : widen s t = .ok u)
    (hv : s.Allows γ k v ∨ t.Allows γ k v) : u.Allows γ k v :=
  allows_upward hγ.toJoinSound hγ.of_widen h hv

/-- A join describes the states of both operands. -/
theorem describes_join [Nonempty κ] (hγ : JoinSound γ) (h : join s t = .ok u)
    (hσ : s.Describes γ σ ∨ t.Describes γ σ) : u.Describes γ σ :=
  describes_iff.mpr fun k => allows_join hγ h (hσ.imp (·.allows k) (·.allows k))

theorem describes_widen [Nonempty κ] (hγ : LatticeSound γ) (h : widen s t = .ok u)
    (hσ : s.Describes γ σ ∨ t.Describes γ σ) : u.Describes γ σ :=
  describes_iff.mpr fun k => allows_widen hγ h (hσ.imp (·.allows k) (·.allows k))

/-- One step of a meet keeps every state whose value under the key the restriction stands for. -/
theorem describes_restrict (hγ : LatticeSound γ) {w : α} (h : s.restrict k w = .ok t)
    (hs : s.Describes γ σ) (hw : γ w (σ k)) : t.Describes γ σ := by
  cases s with
  | bottom => exact hs.elim
  | entries m =>
    obtain ⟨x, hx, h⟩ := Analysis.bind_eq_ok.mp h
    have hxk : γ x (σ k) := by
      unfold meetEntry at hx
      cases hm : m.get? k with
      | none =>
        rw [hm] at hx
        exact Except.ok.inj hx ▸ hw
      | some a =>
        rw [hm] at hx
        exact hγ.of_meet hx (hs k a hm) hw
    rw [Analysis.pure_eq_ok] at h
    subst h
    split
    · rename_i hb
      exact hγ.empty hb hxk
    · intro k' a ha
      rw [FinMap.get?_insert] at ha
      split at ha
      · rename_i hk
        rw [hk, ← Option.some.inj ha]
        exact hxk
      · exact hs k' a ha

/-- **Meets keep the states both operands describe.** -/
theorem describes_meet (hγ : LatticeSound γ) (h : meet s t = .ok u) (hs : s.Describes γ σ)
    (ht : t.Describes γ σ) : u.Describes γ σ := by
  refine keeps_downward (γ := fun s σ => s.Describes γ σ) ?_ h hs ht
  intro s t u hst h hs ht
  obtain ⟨n, rfl⟩ := eq_entries_of_isBottom hst.right_bottom
  have hstep : ∀ e ∈ n.entries, ∀ b b' : Pointwise κ α, b.Describes γ σ →
      b.restrict e.1 e.2 = .ok b' → b'.Describes γ σ := fun e he _ _ hb hres =>
    describes_restrict hγ hres hb (ht e.1 e.2 (FinMap.mem_entries_iff.mp he))
  exact Analysis.foldlM_keeps hstep hs h

end Pointwise

end AbstractDomains
