import AbstractDomains.Environment
import AbstractDomains.Heap.Memory
import AbstractDomains.Proofs.Numeric.Lattices

/-!
# Environments and memories are lattices

A pointwise lattice compares two maps by what is read from them, and a key that is not in a map
reads as top. Two maps that read the same are equal if they are canonical, that is if they store
neither top nor bottom. On canonical maps joins and meets are taken under each key, apart from a
meet that is bottom under some key and so is bottom altogether.

Results:
* `Pointwise.joinOrder`, `Pointwise.latticeOrder`, `Pointwise.leqDecides`: for any order of the
  values, joins and meets of canonical maps are bounds in the order of their reads, and the lattice
  decides it if that of the values is decided.
* `Pointwise.isJoin_read`: a join is taken under each key.
* `Pointwise.latticeOn`: canonical maps are a lattice if their values are.
* `latticeOn_environments_and_memories`: so are environments and memories, ordered by their reads.
-/

namespace AbstractDomains

namespace Pointwise

variable {κ α : Type} [Ord κ] [DecidableEq α] [AbstractLattice α]
  {C : α → Prop} {R : α → α → Prop} {s t u : Pointwise κ α} {m n l : FinMap κ α} {k : κ} {a : α}

/-- Maps whose values are in `C`, and neither top nor bottom. -/
def Canonical (C : α → Prop) : Pointwise κ α → Prop
  | bottom => True
  | entries m => ∀ k a, m.get? k = some a → C a ∧ a ≠ top ∧ a ≠ AbstractDomains.bottom

/-- There is no state in `s`, or there are some in `t` and each key reads below. -/
def ReadsBelow (R : α → α → Prop) (s t : Pointwise κ α) : Prop :=
  s = bottom ∨ t ≠ bottom ∧ ∀ k, R (s.read k) (t.read k)

/-! ## Reading canonical maps -/

theorem Canonical.read_mem (h : OrderOn C R) (hs : Canonical C s) (k : κ) : C (s.read k) := by
  cases s with
  | bottom => exact h.bottom_mem
  | entries m =>
    cases hk : m.get? k with
    | none => exact read_of_get?_eq_none hk ▸ h.top_mem
    | some a => exact read_of_get?_eq_some hk ▸ (hs k a hk).1

theorem Canonical.read_ne_bottom (h : OrderOn C R) (hs : Canonical C s) (hne : s ≠ bottom) (k : κ) :
    s.read k ≠ AbstractDomains.bottom := by
  cases s with
  | bottom => exact absurd rfl hne
  | entries m =>
    cases hk : m.get? k with
    | none => exact read_of_get?_eq_none hk ▸ h.bottom_ne_top.symm
    | some a => exact read_of_get?_eq_some hk ▸ (hs k a hk).2.2

/-- A canonical map holds what is read from it, unless that is top. -/
theorem Canonical.get?_eq_some_iff (hm : Canonical C (entries m)) :
    m.get? k = some a ↔ read (entries m) k = a ∧ a ≠ top := by
  cases hk : m.get? k with
  | none =>
    rw [read_of_get?_eq_none hk]
    exact iff_of_false (Option.some_ne_none a).symm fun h => h.2 h.1.symm
  | some b =>
    rw [read_of_get?_eq_some hk, Option.some.injEq]
    exact ⟨fun h => ⟨h, h ▸ (hm k b hk).2.1⟩, And.left⟩

/-! ## Values under a key -/

theorem Combines.isJoin_read (h : JoinOrder C R) (hm : Canonical C (entries m))
    (hn : Canonical C (entries n)) (hl : Combines join m n l) (k : κ) :
    IsJoin C R (read (entries m) k) (read (entries n) k) (read (entries l) k) := by
  have hmk := hm.read_mem h.toOrderOn k
  have hnk := hn.read_mem h.toOrderOn k
  cases hm' : m.get? k with
  | none =>
    rw [read_of_get?_eq_none hm', read_of_get?_eq_none (hl.of_left hm')]
    exact h.isJoin_of_ge h.top_mem (h.le_top hnk)
  | some v =>
    cases hn' : n.get? k with
    | none =>
      rw [read_of_get?_eq_none hn', read_of_get?_eq_none (hl.of_right hn')]
      exact h.isJoin_of_le h.top_mem (h.le_top hmk)
    | some w =>
      obtain ⟨x, hx, hlk⟩ := hl.of_both hm' hn'
      rw [read_of_get?_eq_some hm'] at hmk ⊢
      rw [read_of_get?_eq_some hn'] at hnk ⊢
      have hjoin : IsJoin C R v w x := h.isJoin_of_join hmk hnk hx
      split at hlk
      · rename_i htop
        rwa [read_of_get?_eq_none hlk, ← (h.isTop_iff hjoin.mem).mp htop]
      · rwa [read_of_get?_eq_some hlk]

/-- Values that are combined under a key are above both operands, so they are not bottom. -/
theorem Combines.canonical (h : JoinOrder C R) (hm : Canonical C (entries m))
    (hn : Canonical C (entries n)) (hl : Combines join m n l) : Canonical C (entries l) := by
  intro k x hlk
  have hjoin := hl.isJoin_read h hm hn k
  rw [read_of_get?_eq_some hlk] at hjoin
  refine ⟨hjoin.mem, fun htop => ?_, fun hbot => ?_⟩
  · cases hm' : m.get? k with
    | none => exact Option.some_ne_none x (hlk.symm.trans (hl.of_left hm'))
    | some v =>
      cases hn' : n.get? k with
      | none => exact Option.some_ne_none x (hlk.symm.trans (hl.of_right hn'))
      | some w =>
        -- a result that counts as top was dropped
        obtain ⟨y, -, hlk'⟩ := hl.of_both hm' hn'
        split at hlk'
        · exact Option.some_ne_none x (hlk.symm.trans hlk')
        · rename_i hy
          obtain rfl := Option.some.inj (hlk'.symm.trans hlk)
          exact hy ((h.isTop_iff hjoin.mem).mpr htop)
  · rw [hbot] at hjoin
    exact hm.read_ne_bottom h.toOrderOn (entries_ne_bottom m) k
      (h.eq_bottom (hm.read_mem h.toOrderOn k) hjoin.left)

theorem isMeet_meetEntry (h : LatticeOrder C R) (hm : Canonical C (entries m)) {w : α} (hw : C w) :
    ∃ x, meetEntry (m.get? k) w = .ok x ∧ IsMeet C R (read (entries m) k) w x := by
  have hmk := hm.read_mem h.toOrderOn k
  cases hk : m.get? k with
  | none =>
    rw [read_of_get?_eq_none hk]
    exact ⟨w, rfl, h.isMeet_of_ge hw (h.le_top hw)⟩
  | some v =>
    rw [read_of_get?_eq_some hk] at hmk ⊢
    exact h.exists_meet hmk hw

theorem isMeet_of_meetEntry (h : LatticeOrder C R) (hm : Canonical C (entries m)) {w x : α}
    (hw : C w) (hx : meetEntry (m.get? k) w = .ok x) : IsMeet C R (read (entries m) k) w x := by
  obtain ⟨y, hy, hmeet⟩ := isMeet_meetEntry (k := k) h hm hw
  exact Except.ok.inj (hy.symm.trans hx) ▸ hmeet

/-- There is nothing but bottom below two maps that clash. -/
theorem Clashes.isMeet_bottom (h : LatticeOrder C R) (hm : Canonical C (entries m))
    (hn : Canonical C (entries n)) (hc : Clashes m n) :
    IsMeet (Canonical C) (ReadsBelow R) (entries m) (entries n) bottom where
  mem := trivial
  left := .inl rfl
  right := .inl rfl
  greatest {d} hd hdm hdn := by
    obtain ⟨k, w, x, hw, hx, hxb⟩ := hc
    refine .inl (by_contra fun hne => ?_)
    obtain ⟨-, hdm⟩ := hdm.resolve_left hne
    obtain ⟨-, hdn⟩ := hdn.resolve_left hne
    have hdk := hd.read_mem h.toOrderOn k
    have hmeet := isMeet_of_meetEntry h hm (hn k w hw).1 hx
    rw [(h.isBottom_iff hmeet.mem).mp hxb] at hmeet
    have hbelow := hmeet.greatest hdk (hdm k) (read_of_get?_eq_some hw ▸ hdn k)
    exact hd.read_ne_bottom h.toOrderOn hne k (h.eq_bottom hdk hbelow)

theorem Restricts.isMeet_read (h : LatticeOrder C R) (hm : Canonical C (entries m))
    (hn : Canonical C (entries n)) (hl : Restricts m n l) (k : κ) :
    IsMeet C R (read (entries m) k) (read (entries n) k) (read (entries l) k) := by
  cases hn' : n.get? k with
  | none =>
    have hmk := hm.read_mem h.toOrderOn k
    have hlk : read (entries l) k = read (entries m) k := by
      show (l.get? k).getD top = (m.get? k).getD top
      rw [hl.of_none hn']
    rw [hlk, read_of_get?_eq_none hn']
    exact h.isMeet_of_le hmk (h.le_top hmk)
  | some w =>
    obtain ⟨x, hx, -, hlk⟩ := hl.of_some hn'
    rw [read_of_get?_eq_some hn', read_of_get?_eq_some hlk]
    exact isMeet_of_meetEntry h hm (hn k w hn').1 hx

/-- Values that are met under a key are below both operands, so they are not top. -/
theorem Restricts.canonical (h : LatticeOrder C R) (hm : Canonical C (entries m))
    (hn : Canonical C (entries n)) (hl : Restricts m n l) : Canonical C (entries l) := by
  intro k x hlk
  cases hn' : n.get? k with
  | none => exact hm k x ((hl.of_none hn').symm.trans hlk)
  | some w =>
    obtain ⟨hw, hwtop, -⟩ := hn k w hn'
    obtain ⟨y, hy, hyb, hlk'⟩ := hl.of_some hn'
    obtain rfl := Option.some.inj (hlk'.symm.trans hlk)
    have hmeet := isMeet_of_meetEntry h hm hw hy
    refine ⟨hmeet.mem, fun htop => ?_, fun hbot => ?_⟩
    · exact hwtop (h.eq_top hw (htop ▸ hmeet.right))
    · exact Bool.false_ne_true (hyb.symm.trans ((h.isBottom_iff hmeet.mem).mpr hbot))

/-! ## The order of reads -/

variable [Std.TransOrd κ] [Std.LawfulEqOrd κ]

/-- **Canonical maps that read the same are equal.** -/
theorem Canonical.eq_of_read (hs : Canonical C s) (ht : Canonical C t) (hsne : s ≠ bottom)
    (htne : t ≠ bottom) (h : ∀ k, s.read k = t.read k) : s = t := by
  cases s with
  | bottom => exact absurd rfl hsne
  | entries m =>
    cases t with
    | bottom => exact absurd rfl htne
    | entries n =>
      refine congrArg entries (FinMap.ext_get? fun k => Option.ext fun a => ?_)
      rw [hs.get?_eq_some_iff, ht.get?_eq_some_iff, h k]

variable [DecidableEq κ]

/-- The only canonical map with nothing but top values is the one without entries. -/
theorem Canonical.isTop_iff (h : OrderOn C R) (hs : Canonical C s) : isTop s = true ↔ s = top := by
  refine ⟨fun htop => ?_, fun htop => htop ▸ rfl⟩
  cases s with
  | bottom => exact absurd htop Bool.false_ne_true
  | entries m =>
    refine congrArg entries (FinMap.ext_get? fun k => ?_)
    cases hk : m.get? k with
    | none => rfl
    | some a =>
      obtain ⟨hmem, hne, -⟩ := hs k a hk
      have hvalue : a ∈ m.values := List.mem_map.mpr ⟨(k, a), FinMap.mem_entries_iff.mpr hk, rfl⟩
      exact absurd ((h.isTop_iff hmem).mp (List.all_eq_true.mp htop a hvalue)) hne

theorem canonical_ofList {es : List (κ × α)}
    (h : ∀ e ∈ es, C e.2 ∧ e.2 ≠ top ∧ e.2 ≠ AbstractDomains.bottom) :
    Canonical C (entries (.ofList es)) :=
  fun k a hk => h (k, a) (FinMap.mem_of_get?_ofList hk)

theorem orderOn (h : OrderOn C R) :
    OrderOn (Canonical C : Pointwise κ α → Prop) (ReadsBelow R) where
  bottom_mem := trivial
  top_mem _ a hk := absurd hk.symm (Option.some_ne_none a)
  bottom_ne_top := (entries_ne_bottom _).symm
  isBottom_iff _ := isBottom_iff
  isTop_iff hs := hs.isTop_iff h
  refl {s} hs := or_iff_not_imp_left.mpr fun hne => ⟨hne, fun k => h.refl (hs.read_mem h k)⟩
  antisymm {s t} hs ht hst hts := by
    rcases hst with rfl | ⟨htne, hst⟩
    · rcases hts with rfl | ⟨hne, -⟩
      · rfl
      · exact absurd rfl hne
    · obtain ⟨hsne, hts⟩ := hts.resolve_left htne
      exact hs.eq_of_read ht hsne htne fun k =>
        h.antisymm (hs.read_mem h k) (ht.read_mem h k) (hst k) (hts k)
  trans {s t u} hs ht hu hst htu := by
    rcases hst with rfl | ⟨htne, hst⟩
    · exact .inl rfl
    · obtain ⟨hune, htu⟩ := htu.resolve_left htne
      exact .inr ⟨hune, fun k =>
        h.trans (hs.read_mem h k) (ht.read_mem h k) (hu.read_mem h k) (hst k) (htu k)⟩
  bottom_le _ := .inl rfl
  le_top hs := .inr ⟨entries_ne_bottom _, fun k => h.le_top (hs.read_mem h k)⟩

/-! ## The lattice of canonical maps -/

theorem exists_join (h : JoinOrder C R) (hm : Canonical C (entries m))
    (hn : Canonical C (entries n)) :
    ∃ u, combine join (entries m) (entries n) = .ok u ∧
      IsJoin (Canonical C) (ReadsBelow R) (entries m) (entries n) u := by
  obtain ⟨u, hu⟩ : (combine join (entries m) (entries n)).Succeeds :=
    combine_succeeds fun {k v w} hv hw => by
      obtain ⟨x, hx, -⟩ := h.exists_join (hm k v hv).1 (hn k w hw).1
      exact ⟨x, hx⟩
  obtain ⟨l, rfl, hl⟩ := combine_inv hu
  have hread := hl.isJoin_read h hm hn
  have hlne := entries_ne_bottom l
  refine ⟨_, hu, hl.canonical h hm hn, .inr ⟨hlne, fun k => (hread k).left⟩,
    .inr ⟨hlne, fun k => (hread k).right⟩, fun {d} hd hmd hnd => ?_⟩
  obtain ⟨hdne, hmd⟩ := hmd.resolve_left (entries_ne_bottom m)
  obtain ⟨-, hnd⟩ := hnd.resolve_left (entries_ne_bottom n)
  exact .inr ⟨hdne, fun k => (hread k).least (hd.read_mem h.toOrderOn k) (hmd k) (hnd k)⟩

theorem exists_meet (h : LatticeOrder C R) (hm : Canonical C (entries m))
    (hn : Canonical C (entries n)) :
    ∃ u, AbstractLattice.meetProper (entries m) (entries n) = .ok u ∧
      IsMeet (Canonical C) (ReadsBelow R) (entries m) (entries n) u := by
  obtain ⟨u, hu⟩ : (AbstractLattice.meetProper (entries m) (entries n)).Succeeds :=
    meetProper_succeeds fun {k w} hw => by
      obtain ⟨x, hx, -⟩ := isMeet_meetEntry (k := k) h hm (hn k w hw).1
      exact ⟨x, hx⟩
  rcases meetProper_inv hu with ⟨rfl, hc⟩ | ⟨l, rfl, hl⟩
  · exact ⟨_, hu, hc.isMeet_bottom h hm hn⟩
  · have hread := hl.isMeet_read h hm hn
    refine ⟨_, hu, hl.canonical h hm hn, .inr ⟨entries_ne_bottom m, fun k => (hread k).left⟩,
      .inr ⟨entries_ne_bottom n, fun k => (hread k).right⟩, fun {d} hd hdm hdn => ?_⟩
    refine or_iff_not_imp_left.mpr fun hne => ⟨entries_ne_bottom l, fun k => ?_⟩
    obtain ⟨-, hdm⟩ := hdm.resolve_left hne
    obtain ⟨-, hdn⟩ := hdn.resolve_left hne
    exact (hread k).greatest (hd.read_mem h.toOrderOn k) (hdm k) (hdn k)

/-- **Joins of canonical maps are bounds** in the order of their reads, if those of the values
are. -/
theorem joinOrder (h : JoinOrder C R) :
    JoinOrder (Canonical C : Pointwise κ α → Prop) (ReadsBelow R) := by
  refine .of_proper (orderOn h.toOrderOn) fun {s t} hs ht hst => ?_
  obtain ⟨m, n, rfl, rfl⟩ := entries_of_proper hst
  exact exists_join h hs ht

/-- **A join of canonical maps is the join under each key**, whether there is a state or not. -/
theorem isJoin_read (h : JoinOrder C R) (hs : Canonical C s) (ht : Canonical C t)
    (hu : join s t = .ok u) (k : κ) : IsJoin C R (s.read k) (t.read k) (u.read k) := by
  have hsk : C (s.read k) := hs.read_mem h.toOrderOn k
  have htk : C (t.read k) := ht.read_mem h.toOrderOn k
  unfold join at hu
  rcases upward_cases AbstractLattice.joinProper s t with ⟨hst, hc⟩ | ⟨hst, hc⟩ | ⟨hp, hst⟩
  · obtain rfl := Except.ok.inj (hst.symm.trans hu)
    refine h.isJoin_of_ge hsk ?_
    rcases hc with hc | hc | rfl
    · rw [isBottom_iff.mp hc]
      exact h.bottom_le hsk
    · rw [(hs.isTop_iff h.toOrderOn).mp hc]
      exact h.le_top htk
    · exact h.refl hsk
  · obtain rfl := Except.ok.inj (hst.symm.trans hu)
    refine h.isJoin_of_le htk ?_
    rcases hc with hc | hc
    · rw [isBottom_iff.mp hc]
      exact h.bottom_le htk
    · rw [(ht.isTop_iff h.toOrderOn).mp hc]
      exact h.le_top hsk
  · obtain ⟨m, n, rfl, rfl⟩ := entries_of_proper hp
    obtain ⟨l, rfl, hl⟩ := combine_inv (hst.symm.trans hu)
    exact hl.isJoin_read h hs ht k

/-- **Joins and meets of canonical maps are bounds** in the order of their reads, if those of the
values are. -/
theorem latticeOrder (h : LatticeOrder C R) :
    LatticeOrder (Canonical C : Pointwise κ α → Prop) (ReadsBelow R) := by
  refine .of_proper (orderOn h.toOrderOn) (fun {s t} hs ht hst => ?_) (fun {s t} hs ht hst => ?_)
  · obtain ⟨m, n, rfl, rfl⟩ := entries_of_proper hst
    exact exists_join h.joinOrder hs ht
  · obtain ⟨m, n, rfl, rfl⟩ := entries_of_proper hst
    exact exists_meet h hs ht

/-- **The order of reads is decided** if the order of the values is. -/
theorem leqDecides (h : OrderOn C R) (hleq : LeqDecides C R) :
    LeqDecides (Canonical C : Pointwise κ α → Prop) (ReadsBelow R) := by
  refine (orderOn h).leqDecides_of_proper fun {s t} hs ht hst => ?_
  obtain ⟨m, n, rfl, rfl⟩ := entries_of_proper hst
  obtain ⟨x, hx, hall⟩ := leqEntries_spec (m := m) (n := n) fun {k v w} hv hw => by
    obtain ⟨x, hx, -⟩ := hleq (hs k v hv).1 (ht k w hw).1
    exact ⟨x, hx⟩
  refine ⟨x, hx, hall.trans ⟨fun hbelow => .inr ⟨entries_ne_bottom n, fun k => ?_⟩,
    fun hbelow k w hw => ?_⟩⟩
  · cases hn : n.get? k with
    | none => exact read_of_get?_eq_none hn ▸ h.le_top (hs.read_mem h k)
    | some w =>
      have hk := hbelow k w hn
      have hw := (ht k w hn).1
      rw [read_of_get?_eq_some hn]
      cases hm : m.get? k with
      | some v =>
        rw [read_of_get?_eq_some hm]
        simp only [hm] at hk
        exact (hleq.below_iff (hs k v hm).1 hw).mp hk
      | none =>
        simp only [hm] at hk
        rw [(h.isTop_iff hw).mp hk]
        exact h.le_top (hs.read_mem h k)
  · obtain ⟨-, hbelow⟩ := hbelow.resolve_left (entries_ne_bottom m)
    have hk := hbelow k
    have hmem := (ht k w hw).1
    rw [read_of_get?_eq_some hw] at hk
    cases hm : m.get? k with
    | some v => exact (hleq.below_iff (hs k v hm).1 hmem).mpr (read_of_get?_eq_some hm ▸ hk)
    | none =>
      rw [read_of_get?_eq_none hm] at hk
      exact (h.isTop_iff hmem).mpr (h.eq_top hmem hk)

/-- **Canonical maps are a lattice** if their values are. -/
theorem latticeOn (h : LatticeOn C) : LatticeOn (Canonical C : Pointwise κ α → Prop) :=
  (latticeOrder h.toLatticeOrder).latticeOn (leqDecides h.toOrderOn h.leqDecides)

/-- The order of canonical maps is that of their reads. -/
theorem below_iff (h : LatticeOn C) (hs : Canonical C s) (ht : Canonical C t) (hsne : s ≠ bottom)
    (htne : t ≠ bottom) : Below s t ↔ ∀ k, Below (s.read k) (t.read k) := by
  have hleq : LeqDecides (Canonical C : Pointwise κ α → Prop) (ReadsBelow Below) :=
    leqDecides h.toOrderOn h.leqDecides
  rw [hleq.below_iff hs ht]
  exact (or_iff_right hsne).trans (and_iff_right htne)

end Pointwise

/-- **Environments and memories are lattices** over every lattice of values: on those that store
neither top nor bottom no operation fails, the order is a partial order with bottom and top at its
ends, and joins and meets are its bounds. Unless they are bottom, they are in order iff all
variables, and all sites, read in order. -/
theorem latticeOn_environments_and_memories {α : Type} [DecidableEq α] [AbstractLattice α]
    {C : α → Prop} (h : LatticeOn C) :
    (LatticeOn (Pointwise.Canonical C : Environment α → Prop) ∧
      ∀ s t : Environment α, Pointwise.Canonical C s → Pointwise.Canonical C t →
        s ≠ .bottom → t ≠ .bottom → (Below s t ↔ ∀ id, Below (s.read id) (t.read id))) ∧
    (LatticeOn (Pointwise.Canonical C : Memory α → Prop) ∧
      ∀ s t : Memory α, Pointwise.Canonical C s → Pointwise.Canonical C t →
        s ≠ .bottom → t ≠ .bottom → (Below s t ↔ ∀ key, Below (s.read key) (t.read key))) :=
  ⟨⟨Pointwise.latticeOn h, fun _ _ hs ht => Pointwise.below_iff h hs ht⟩,
    Pointwise.latticeOn h, fun _ _ hs ht => Pointwise.below_iff h hs ht⟩

/-- Knowing more of `x`, and `y` besides, is below. -/
theorem latticeOn_environments_and_memories_of_signs :
    let a : Environment Sign := .entries (.ofList [("x", .plus), ("y", .minus)])
    let b : Environment Sign := .entries (.ofList [("x", .zeroPlus)])
    LatticeOn (Pointwise.Canonical (fun _ => True) : Environment Sign → Prop) ∧
      LatticeOn (Pointwise.Canonical (fun _ => True) : Memory Sign → Prop) ∧
      Below a b ∧ ∀ id, Below (a.read id) (b.read id) := by
  intro a b
  obtain ⟨⟨henv, hreads⟩, hmem, -⟩ := latticeOn_environments_and_memories Sign.latticeOn
  have ha : Pointwise.Canonical (fun _ => True) a := Pointwise.canonical_ofList (by decide)
  have hb : Pointwise.Canonical (fun _ => True) b := Pointwise.canonical_ofList (by decide)
  have hab : Below a b := rfl
  have hreads := hreads a b ha hb (Pointwise.entries_ne_bottom _) (Pointwise.entries_ne_bottom _)
  exact ⟨henv, hmem, hab, hreads.mp hab⟩

end AbstractDomains
