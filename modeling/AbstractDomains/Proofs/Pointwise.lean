import AbstractDomains.Pointwise
import AbstractDomains.Proofs.FinMap

/-!
# What pointwise operations hold under each key

The operations of a pointwise lattice go through the entries of its maps one by one. Here is what
they leave under a key, and that they succeed if they do on the entries.

Results:
* `Pointwise.get?_set_of_ne`, `Pointwise.read_set_of_ne`: setting another key.
* `Pointwise.combine_inv`, `Pointwise.combine_succeeds`: joins and widening.
* `Pointwise.meetProper_inv`, `Pointwise.meetProper_succeeds`: meets, which end without a state as
  soon as some key can hold nothing.
* `Pointwise.leqEntries_spec`: the order compares the entries of the greater map.
-/

namespace AbstractDomains.Pointwise

open Analysis (Succeeds succeeds_ok)

variable {κ α : Type} [Ord κ] [DecidableEq κ] [Std.TransOrd κ] [DecidableEq α] [AbstractLattice α]
  {s t u : Pointwise κ α} {m n l : FinMap κ α} {k : κ}

omit [DecidableEq κ] [Std.TransOrd κ] [DecidableEq α] [AbstractLattice α] in
theorem entries_ne_bottom (m : FinMap κ α) : entries m ≠ bottom := by
  intro h
  cases h

theorem isBottom_iff : isBottom s = true ↔ s = bottom :=
  decide_eq_true_iff

theorem eq_entries_of_isBottom (h : isBottom s = false) : ∃ m, s = entries m := by
  cases s with
  | bottom => exact absurd (isBottom_iff.mpr rfl) (by rw [h]; exact Bool.false_ne_true)
  | entries m => exact ⟨m, rfl⟩

omit [DecidableEq κ] [Std.TransOrd κ] in
theorem read_of_get?_eq_some {a : α} (h : m.get? k = some a) : read (entries m) k = a := by
  simp [read, h]

omit [DecidableEq κ] [Std.TransOrd κ] in
theorem read_of_get?_eq_none (h : m.get? k = none) : read (entries m) k = top := by
  simp [read, h]

variable [Std.LawfulEqOrd κ]

/-- Setting a key leaves what is stored under the others, unless no state is left. -/
theorem exists_set {a : α} (ha : isBottom a = false) :
    ∃ n, set (entries m) k a = entries n ∧ ∀ {k'}, k' ≠ k → n.get? k' = m.get? k' := by
  unfold set
  rw [ha]
  by_cases htop : isTop a = true
  · refine ⟨m.erase k, if_pos htop, fun hk => ?_⟩
    rw [FinMap.get?_erase, if_neg hk]
  · refine ⟨m.insert k a, if_neg htop, fun hk => ?_⟩
    rw [FinMap.get?_insert, if_neg hk]

theorem get?_set_of_ne {k' : κ} {a : α} (hk : k' ≠ k) (ha : isBottom a = false) :
    (s.set k a).get? k' = s.get? k' := by
  cases s with
  | bottom => rfl
  | entries m =>
    obtain ⟨n, hset, hn⟩ := exists_set (m := m) (k := k) ha
    rw [hset]
    exact hn hk

/-- So the others read as they did. -/
theorem read_set_of_ne {k' : κ} {a : α} (hk : k' ≠ k) (ha : isBottom a = false) :
    (s.set k a).read k' = s.read k' := by
  cases s with
  | bottom => rfl
  | entries m =>
    obtain ⟨n, hset, hn⟩ := exists_set (m := m) (k := k) ha
    rw [hset]
    show (n.get? k').getD top = (m.get? k').getD top
    rw [hn hk]

/-! ## Joins and widening -/

/-- `l` holds the results of `op` under the keys of both maps, as far as they are not top. -/
structure Combines (op : α → α → Analysis α) (m n l : FinMap κ α) : Prop where
  of_both : ∀ {k v w}, m.get? k = some v → n.get? k = some w →
    ∃ x, op v w = .ok x ∧ l.get? k = if isTop x then none else some x
  of_left : ∀ {k}, m.get? k = none → l.get? k = none
  of_right : ∀ {k}, n.get? k = none → l.get? k = none

theorem combine_inv {op : α → α → Analysis α} (h : combine op (entries m) (entries n) = .ok u) :
    ∃ l, u = entries l ∧ Combines op m n l := by
  obtain ⟨l, hl, h⟩ := Analysis.bind_eq_ok.mp h
  obtain rfl := Analysis.pure_eq_ok.mp h
  refine ⟨l, rfl, fun {k v w} hm hn => ?_, fun {k} hm => ?_, fun {k} hn => ?_⟩
  · have hk := FinMap.get?_filterMapM hl k
    simp only [hm, hn, Analysis.bind_eq_ok, Analysis.pure_eq_ok] at hk
    obtain ⟨x, hx, hk⟩ := hk
    exact ⟨x, hx, hk.symm⟩
  · simpa only [hm] using FinMap.get?_filterMapM hl k
  · have hk := FinMap.get?_filterMapM hl k
    cases hm : m.get? k with
    | none => simpa only [hm] using hk
    | some v =>
      simp only [hm, hn, Analysis.pure_eq_ok] at hk
      exact hk.symm

omit [DecidableEq κ] in
theorem combine_succeeds {op : α → α → Analysis α}
    (h : ∀ {k v w}, m.get? k = some v → n.get? k = some w → (op v w).Succeeds) :
    (combine op (entries m) (entries n)).Succeeds := by
  refine (Analysis.succeeds_foldlM (fun kept e he => ?_) _).bind fun l => succeeds_ok _
  have hm : m.get? e.1 = some e.2 := FinMap.mem_entries_iff.mp he
  refine Succeeds.bind ?_ fun r => ?_
  · dsimp only
    cases hn : n.get? e.1 with
    | none => exact succeeds_ok none
    | some w => exact (h hm hn).bind fun x => succeeds_ok _
  · cases r with
    | none => exact succeeds_ok kept
    | some w => exact succeeds_ok _

/-! ## Meets -/

/-- `l` holds under each key of `n` what both maps allow there, and is like `m` elsewhere. -/
structure Restricts (m n l : FinMap κ α) : Prop where
  of_some : ∀ {k w}, n.get? k = some w →
    ∃ x, meetEntry (m.get? k) w = .ok x ∧ isBottom x = false ∧ l.get? k = some x
  of_none : ∀ {k}, n.get? k = none → l.get? k = m.get? k

/-- A key under which the two maps allow nothing. -/
def Clashes (m n : FinMap κ α) : Prop :=
  ∃ k w x, n.get? k = some w ∧ meetEntry (m.get? k) w = .ok x ∧ isBottom x = true

omit [DecidableEq κ] [Std.LawfulEqOrd κ] in
theorem foldlM_restrict_bottom (es : List (κ × α)) :
    es.foldlM (fun s e => restrict s e.1 e.2) (bottom : Pointwise κ α) = .ok bottom := by
  induction es with
  | nil => rfl
  | cons e rest ih => exact ih

/-- The map left by restricting one key after the other, each of them once. -/
theorem foldlM_restrict_inv : ∀ {es : List (κ × α)},
    (es.Pairwise fun a b => compare a.1 b.1 = .lt) → ∀ {m : FinMap κ α} {u : Pointwise κ α},
    es.foldlM (fun s e => restrict s e.1 e.2) (entries m) = .ok u →
    (u = bottom ∧ ∃ k w x, FinMap.lookup k es = some w ∧ meetEntry (m.get? k) w = .ok x ∧
      isBottom x = true) ∨
    ∃ l, u = entries l ∧ ∀ k, match FinMap.lookup k es with
      | none => l.get? k = m.get? k
      | some w => ∃ x, meetEntry (m.get? k) w = .ok x ∧ isBottom x = false ∧ l.get? k = some x
  | [], _, m, u, h => by
    rw [List.foldlM_nil, Analysis.pure_eq_ok] at h
    exact .inr ⟨m, h.symm, fun _ => rfl⟩
  | (k₀, w₀) :: rest, hes, m, u, h => by
    rw [List.foldlM_cons, Analysis.bind_eq_ok] at h
    obtain ⟨mid, hmid, h⟩ := h
    obtain ⟨x, hx, hmid⟩ := Analysis.bind_eq_ok.mp hmid
    obtain rfl := Analysis.pure_eq_ok.mp hmid
    obtain ⟨head, tail⟩ := List.pairwise_cons.mp hes
    have hself : FinMap.lookup k₀ ((k₀, w₀) :: rest) = some w₀ := by simp [FinMap.lookup]
    -- the keys still to come are not the one that was restricted
    have hother : ∀ {k}, k ≠ k₀ →
        FinMap.lookup k ((k₀, w₀) :: rest) = FinMap.lookup k rest := fun hk => by
      simp [FinMap.lookup, hk]
    have hlast : FinMap.lookup k₀ rest = none := FinMap.lookup_eq_none head
    by_cases hb : isBottom x = true
    · rw [if_pos hb, foldlM_restrict_bottom] at h
      exact .inl ⟨(Except.ok.inj h).symm, k₀, w₀, x, hself, hx, hb⟩
    · rw [if_neg hb] at h
      have hget : ∀ {k}, k ≠ k₀ → (m.insert k₀ x).get? k = m.get? k := fun hk => by
        rw [FinMap.get?_insert, if_neg hk]
      rcases foldlM_restrict_inv tail h with ⟨hu, k, w, y, hk, hy, hyb⟩ | ⟨l, hu, hl⟩
      · have hne : k ≠ k₀ := by
          rintro rfl
          exact Option.some_ne_none w (hk.symm.trans hlast)
        rw [hget hne] at hy
        exact .inl ⟨hu, k, w, y, (hother hne).trans hk, hy, hyb⟩
      · refine .inr ⟨l, hu, fun k => ?_⟩
        have hk := hl k
        by_cases hne : k = k₀
        · subst hne
          rw [hlast, FinMap.get?_insert, if_pos rfl] at hk
          rw [hself]
          exact ⟨x, hx, Bool.eq_false_iff.mpr hb, hk⟩
        · rw [hget hne] at hk
          rw [hother hne]
          exact hk

theorem meetProper_inv (h : AbstractLattice.meetProper (entries m) (entries n) = .ok u) :
    (u = bottom ∧ Clashes m n) ∨ ∃ l, u = entries l ∧ Restricts m n l := by
  rcases foldlM_restrict_inv n.ascending h with hu | ⟨l, hu, hl⟩
  · exact .inl hu
  · refine .inr ⟨l, hu, fun {k w} hn => ?_, fun {k} hn => ?_⟩
    · have hk := hl k
      rw [show FinMap.lookup k n.entries = some w from hn] at hk
      exact hk
    · have hk := hl k
      rw [show FinMap.lookup k n.entries = none from hn] at hk
      exact hk

theorem foldlM_restrict_succeeds : ∀ {es : List (κ × α)},
    (es.Pairwise fun a b => compare a.1 b.1 = .lt) → ∀ {m : FinMap κ α},
    (∀ {k w}, FinMap.lookup k es = some w → (meetEntry (m.get? k) w).Succeeds) →
    (es.foldlM (fun s e => restrict s e.1 e.2) (entries m)).Succeeds
  | [], _, m, _ => succeeds_ok _
  | (k₀, w₀) :: rest, hes, m, h => by
    obtain ⟨head, tail⟩ := List.pairwise_cons.mp hes
    obtain ⟨x, hx⟩ : (meetEntry (m.get? k₀) w₀).Succeeds := h (by simp [FinMap.lookup])
    have hstep : restrict (entries m) k₀ w₀ =
        .ok (if isBottom x then bottom else entries (m.insert k₀ x)) := by
      simp [restrict, hx, bind, Except.bind, pure, Except.pure]
    rw [List.foldlM_cons, hstep]
    show Succeeds (rest.foldlM _ (if isBottom x then bottom else entries (m.insert k₀ x)))
    split
    · rw [foldlM_restrict_bottom]
      exact succeeds_ok bottom
    · refine foldlM_restrict_succeeds tail fun {k w} hk => ?_
      have hne : k ≠ k₀ := by
        rintro rfl
        exact Option.some_ne_none w (hk.symm.trans (FinMap.lookup_eq_none head))
      rw [FinMap.get?_insert, if_neg hne]
      exact h (by simpa [FinMap.lookup, hne] using hk)

theorem meetProper_succeeds
    (h : ∀ {k w}, n.get? k = some w → (meetEntry (m.get? k) w).Succeeds) :
    Succeeds (AbstractLattice.meetProper (entries m) (entries n)) :=
  foldlM_restrict_succeeds n.ascending h

/-! ## The order -/

omit [DecidableEq κ] [Std.TransOrd κ] in
/-- A map is below another if each entry of that one is above what the first one holds there. -/
theorem leqEntries_spec
    (h : ∀ {k v w}, m.get? k = some v → n.get? k = some w → (leq v w).Succeeds) :
    ∃ b, leqEntries m n = .ok b ∧ (b = true ↔ ∀ k w, n.get? k = some w →
      match m.get? k with
      | some v => leq v w = .ok true
      | none => isTop w = true) := by
  have htest : ∀ e ∈ n.entries, Succeeds (match m.get? e.1 with
      | some v => leq v e.2
      | none => .ok (isTop e.2)) := fun e he => by
    have hn : n.get? e.1 = some e.2 := FinMap.mem_entries_iff.mp he
    cases hm : m.get? e.1 with
    | some v => exact h hm hn
    | none => exact succeeds_ok _
  obtain ⟨b, hb, hall⟩ := Analysis.allM_spec _ htest
  refine ⟨b, hb, hall.trans ⟨fun hb k w hn => ?_, fun hb e he => ?_⟩⟩
  · have hk := hb (k, w) (FinMap.mem_entries_iff.mpr hn)
    cases hm : m.get? k with
    | some v => simpa only [hm] using hk
    | none => simpa only [hm, Except.ok.injEq] using hk
  · have hk := hb e.1 e.2 (FinMap.mem_entries_iff.mp he)
    cases hm : m.get? e.1 with
    | some v => simpa only [hm] using hk
    | none => simpa only [hm, Except.ok.injEq] using hk

end AbstractDomains.Pointwise
