import AbstractDomains.Proofs.Heap.PointsTo
import AbstractDomains.Proofs.LatticeLaws

/-!
# Points-to sets are a lattice

A points-to set has a level under each key: none if the key is no target, then strong, then weak,
and the highest where any site is possible. A join has the greater level of its operands under each
key, a meet the lesser one, and the order compares the levels. As a set is known by its levels, the
laws of the lattice are those of numbers, and it is distributive.

Results:
* `PointsTo.eq_of_level`, `PointsTo.mem_toList`: sets with the same levels are equal, and list the
  same sites.
* `PointsTo.level_union`, `PointsTo.level_intersection`, `PointsTo.subset_iff`: the operations on
  maps, under each key.
* `PointsTo.exists_join`, `PointsTo.exists_meet`, `PointsTo.leqDecides`: those on sets, where any
  site may be possible.
* `PointsTo.contains_join_iff`, `PointsTo.contains_meet_iff`: the targets of a join and of a meet.
* `PointsTo.contains_of_below`, `PointsTo.strongTarget?_of_below`: the targets of a lesser set.
* `PointsTo.distributive_lattice`: the lattice, and where a weak mention of a key stands in it.
-/

namespace AbstractDomains

namespace Strength

/-- How much a mention of a key allows: nothing without one, more if it is weak. -/
def level : Option Strength → Nat
  | none => 0
  | some strong => 1
  | some weak => 2

variable {s t : Option Strength}

theorem level_le (s : Option Strength) : level s ≤ 2 := by
  rcases s with _ | _ | _ <;> decide

theorem level_injective (h : level s = level t) : s = t := by
  revert h
  rcases s with _ | _ | _ <;> rcases t with _ | _ | _ <;> decide

theorem level_weaker (s t : Strength) :
    level (some (s.weaker t)) = max (level (some s)) (level (some t)) := by
  cases s <;> cases t <;> rfl

theorem level_stronger (s t : Strength) :
    level (some (s.stronger t)) = min (level (some s)) (level (some t)) := by
  cases s <;> cases t <;> rfl

theorem le_iff {s t : Strength} : s.le t = true ↔ level (some s) ≤ level (some t) := by
  cases s <;> cases t <;> decide

end Strength

namespace PointsTo

open Strength (level_weaker level_stronger)

variable {p q r : PointsTo} {m n : FinMap SiteKey Strength} {key : SiteKey}

/-! ## Levels -/

/-- How far a set goes under a key: not at all, to a strong site, to a weak one, or to any. -/
def level : PointsTo → SiteKey → Nat
  | top, _ => 3
  | sites map, key => Strength.level (map.get? key)

@[simp]
theorem level_top (key : SiteKey) : top.level key = 3 :=
  rfl

@[simp]
theorem level_sites (m : FinMap SiteKey Strength) (key : SiteKey) :
    (sites m).level key = Strength.level (m.get? key) :=
  rfl

theorem level_bottom (key : SiteKey) : PointsTo.bottom.level key = 0 :=
  rfl

theorem level_le (p : PointsTo) (key : SiteKey) : p.level key ≤ 3 := by
  cases p with
  | top => exact Nat.le_refl 3
  | sites m => exact Nat.le_succ_of_le (Strength.level_le _)

/-- No finite set goes as far as the one of all sites, under any key. -/
theorem level_sites_lt (m : FinMap SiteKey Strength) (key : SiteKey) : (sites m).level key < 3 :=
  Nat.lt_succ_of_le (Strength.level_le _)

/-- **A set is known by its levels.** -/
theorem eq_of_level (h : ∀ key, p.level key = q.level key) : p = q := by
  have hsome := h ⟨"", none⟩
  cases p with
  | top =>
    cases q with
    | top => rfl
    | sites n => exact absurd hsome.symm (Nat.ne_of_lt (level_sites_lt n _))
  | sites m =>
    cases q with
    | top => exact absurd hsome (Nat.ne_of_lt (level_sites_lt m _))
    | sites n => exact congrArg sites (FinMap.ext_get? fun key => Strength.level_injective (h key))

/-- The listed sites are the mentions of keys, unless any site is possible. -/
theorem mem_toList {site : AllocationSite} :
    site ∈ p.toList ↔ p.level site.key = Strength.level (some site.strength) := by
  cases p with
  | top => cases hs : site.strength <;> simp [toList, Strength.level]
  | sites map =>
    rw [level_sites]
    constructor
    · intro h
      obtain ⟨e, he, rfl⟩ := List.mem_map.mp h
      exact congrArg Strength.level (FinMap.mem_entries_iff.mp he)
    · intro h
      exact List.mem_map.mpr ⟨(site.key, site.strength),
        FinMap.mem_entries_iff.mpr (Strength.level_injective h), rfl⟩

/-! ## Operations on maps -/

theorem level_addSite (m : FinMap SiteKey Strength) (site : AllocationSite) (key : SiteKey) :
    Strength.level ((addSite m site).get? key) = max (Strength.level (m.get? key))
      (Strength.level (if key = site.key then some site.strength else none)) := by
  unfold addSite
  rw [FinMap.get?_insert]
  by_cases hkey : key = site.key
  · subst hkey
    cases m.get? site.key with
    | none => simp [Strength.level]
    | some strength => simp [level_weaker]
  · simp [hkey, Strength.level]

/-- Sites that are added one after the other, each with a key of its own. -/
theorem level_foldl_addSite :
    ∀ {l : List (SiteKey × Strength)}, (l.Pairwise fun a b => compare a.1 b.1 = .lt) →
      ∀ (m : FinMap SiteKey Strength) (key : SiteKey),
        Strength.level ((l.foldl (fun map e => addSite map ⟨e.1, e.2⟩) m).get? key) =
          max (Strength.level (m.get? key)) (Strength.level (FinMap.lookup key l))
  | [], _, m, key => by simp [FinMap.lookup, Strength.level]
  | (k, s) :: rest, hl, m, key => by
    obtain ⟨head, tail⟩ := List.pairwise_cons.mp hl
    rw [List.foldl_cons, level_foldl_addSite tail, level_addSite]
    by_cases hkey : key = k
    · subst hkey
      have hrest : FinMap.lookup key rest = none := FinMap.lookup_eq_none head
      simp [FinMap.lookup, hrest, Strength.level]
    · simp [FinMap.lookup, hkey, Strength.level]

theorem level_union (m n : FinMap SiteKey Strength) (key : SiteKey) :
    Strength.level ((union m n).get? key) =
      max (Strength.level (m.get? key)) (Strength.level (n.get? key)) :=
  level_foldl_addSite n.ascending m key

theorem level_intersection (m n : FinMap SiteKey Strength) (key : SiteKey) :
    Strength.level ((intersection m n).get? key) =
      min (Strength.level (m.get? key)) (Strength.level (n.get? key)) := by
  unfold intersection
  rw [FinMap.get?_filterMap]
  cases m.get? key with
  | none => simp [Strength.level]
  | some s =>
    cases n.get? key with
    | none => simp [Strength.level]
    | some t => simp [level_stronger]

theorem subset_iff :
    subset m n = true ↔ ∀ key, Strength.level (m.get? key) ≤ Strength.level (n.get? key) := by
  unfold subset
  rw [List.all_eq_true]
  constructor
  · intro h key
    cases hm : m.get? key with
    | none => exact Nat.zero_le _
    | some s =>
      have hs := h (key, s) (FinMap.mem_entries_iff.mpr hm)
      cases hn : n.get? key with
      | none => simp [hn] at hs
      | some t =>
        simp only [hn] at hs
        exact Strength.le_iff.mp hs
  · intro h e he
    have hm : m.get? e.1 = some e.2 := FinMap.mem_entries_iff.mp he
    have hlevel := h e.1
    rw [hm] at hlevel
    cases hn : n.get? e.1 with
    | none =>
      rw [hn] at hlevel
      cases hs : e.2 <;> simp [hs, Strength.level] at hlevel
    | some t =>
      rw [hn] at hlevel
      exact Strength.le_iff.mpr hlevel

/-! ## Operations on sets -/

theorem isBottom_iff : isBottom p = true ↔ p = .bottom :=
  decide_eq_true_iff

theorem isTop_iff : isTop p = true ↔ p = top :=
  decide_eq_true_iff

/-- Operands that are not settled trivially are sets of listed sites. -/
theorem sites_of_proper (h : Proper p q) : ∃ m n, p = sites m ∧ q = sites n := by
  obtain ⟨-, -, hp, hq, -⟩ := h
  cases p with
  | top => exact absurd hp (by decide)
  | sites m =>
    cases q with
    | top => exact absurd hq (by decide)
    | sites n => exact ⟨m, n, rfl, rfl⟩

/-- **A join has the greater of both levels** under each key. -/
theorem exists_join (p q : PointsTo) :
    ∃ r, join p q = .ok r ∧ ∀ key, r.level key = max (p.level key) (q.level key) := by
  unfold join
  rcases upward_cases AbstractLattice.joinProper p q with ⟨hr, hc⟩ | ⟨hr, hc⟩ | ⟨hpq, hr⟩
  · refine ⟨p, hr, fun key => ?_⟩
    have := level_le q key
    rcases hc with hq | hp | rfl
    · rw [isBottom_iff.mp hq, level_bottom, Nat.max_zero]
    · rw [isTop_iff.mp hp, level_top]
      omega
    · rw [Nat.max_self]
  · refine ⟨q, hr, fun key => ?_⟩
    have := level_le p key
    rcases hc with hp | hq
    · rw [isBottom_iff.mp hp, level_bottom, Nat.zero_max]
    · rw [isTop_iff.mp hq, level_top]
      omega
  · obtain ⟨m, n, rfl, rfl⟩ := sites_of_proper hpq
    exact ⟨sites (union m n), hr, level_union m n⟩

/-- **A meet has the lesser of both levels** under each key. -/
theorem exists_meet (p q : PointsTo) :
    ∃ r, meet p q = .ok r ∧ ∀ key, r.level key = min (p.level key) (q.level key) := by
  unfold meet
  rcases downward_cases AbstractLattice.meetProper p q with ⟨hr, hc⟩ | ⟨hr, hc⟩ | ⟨hpq, hr⟩
  · refine ⟨p, hr, fun key => ?_⟩
    have := level_le p key
    rcases hc with hq | hp | rfl
    · rw [isTop_iff.mp hq, level_top]
      omega
    · rw [isBottom_iff.mp hp, level_bottom, Nat.zero_min]
    · rw [Nat.min_self]
  · refine ⟨q, hr, fun key => ?_⟩
    have := level_le q key
    rcases hc with hp | hq
    · rw [isTop_iff.mp hp, level_top]
      omega
    · rw [isBottom_iff.mp hq, level_bottom, Nat.min_zero]
  · obtain ⟨m, n, rfl, rfl⟩ := sites_of_proper hpq
    exact ⟨sites (intersection m n), hr, level_intersection m n⟩

/-- The levels of the first set are at most those of the second one. -/
def LevelsBelow (p q : PointsTo) : Prop :=
  ∀ key, p.level key ≤ q.level key

theorem orderOn : OrderOn (fun _ => True) LevelsBelow where
  bottom_mem := trivial
  top_mem := trivial
  bottom_ne_top := by decide
  isBottom_iff _ := isBottom_iff
  isTop_iff _ := isTop_iff
  refl _ _ := Nat.le_refl _
  antisymm _ _ hpq hqp := eq_of_level fun key => Nat.le_antisymm (hpq key) (hqp key)
  trans _ _ _ hpq hqr key := Nat.le_trans (hpq key) (hqr key)
  bottom_le _ _ := Nat.zero_le _
  le_top {p} _ key := level_le p key

theorem latticeOrder : LatticeOrder (fun _ => True) LevelsBelow where
  toOrderOn := orderOn
  exists_join {p q} _ _ := by
    obtain ⟨r, hr, hlevel⟩ := exists_join p q
    refine ⟨r, hr, trivial, fun key => ?_, fun key => ?_, fun {s} _ hps hqs key => ?_⟩
    · exact hlevel key ▸ Nat.le_max_left _ _
    · exact hlevel key ▸ Nat.le_max_right _ _
    · exact hlevel key ▸ Nat.max_le.mpr ⟨hps key, hqs key⟩
  exists_meet {p q} _ _ := by
    obtain ⟨r, hr, hlevel⟩ := exists_meet p q
    refine ⟨r, hr, trivial, fun key => ?_, fun key => ?_, fun {s} _ hsp hsq key => ?_⟩
    · exact hlevel key ▸ Nat.min_le_left _ _
    · exact hlevel key ▸ Nat.min_le_right _ _
    · exact hlevel key ▸ Nat.le_min.mpr ⟨hsp key, hsq key⟩

/-- **The order compares levels.** -/
theorem leqDecides : LeqDecides (fun _ => True) LevelsBelow := by
  refine orderOn.leqDecides_of_proper fun {p q} _ _ hpq => ?_
  obtain ⟨m, n, rfl, rfl⟩ := sites_of_proper hpq
  exact ⟨subset m n, rfl, subset_iff⟩

/-! ## The lattice -/

theorem below_iff : Below p q ↔ ∀ key, p.level key ≤ q.level key :=
  leqDecides.below_iff trivial trivial

/-- Of two operations that combine levels, one distributes over the other if it does on levels. -/
theorem distributes {op op' : PointsTo → PointsTo → Analysis PointsTo} {f g : Nat → Nat → Nat}
    (hop : ∀ p q, ∃ r, op p q = .ok r ∧ ∀ key, r.level key = f (p.level key) (q.level key))
    (hop' : ∀ p q, ∃ r, op' p q = .ok r ∧ ∀ key, r.level key = g (p.level key) (q.level key))
    (hfg : ∀ a b c, f a (g b c) = g (f a b) (f a c)) (p q r : PointsTo) :
    (do op p (← op' q r)) = (do op' (← op p q) (← op p r)) := by
  obtain ⟨qr, hqr, hqr'⟩ := hop' q r
  obtain ⟨u, hu, hu'⟩ := hop p qr
  obtain ⟨pq, hpq, hpq'⟩ := hop p q
  obtain ⟨pr, hpr, hpr'⟩ := hop p r
  obtain ⟨v, hv, hv'⟩ := hop' pq pr
  have huv : u = v := by
    refine eq_of_level fun key => ?_
    rw [hu', hqr', hv', hpq', hpr', hfg]
  rw [hqr, hpq, hpr]
  show op p qr = op' pq pr
  rw [hu, hv, huv]

theorem join_meet (p q r : PointsTo) :
    (do join p (← meet q r)) = (do meet (← join p q) (← join p r)) :=
  distributes exists_join exists_meet (by omega) p q r

theorem meet_join (p q r : PointsTo) :
    (do meet p (← join q r)) = (do join (← meet p q) (← meet p r)) :=
  distributes exists_meet exists_join (by omega) p q r

/-- Making a mention of a key weak moves a set up. -/
theorem strong_below_weak (m : FinMap SiteKey Strength) (key : SiteKey) :
    Below (sites (m.insert key .strong)) (sites (m.insert key .weak)) := by
  rw [below_iff]
  intro key'
  simp only [level_sites, FinMap.get?_insert]
  split
  · decide
  · exact Nat.le_refl _

theorem not_weak_below_strong (m : FinMap SiteKey Strength) (key : SiteKey) :
    ¬ Below (sites (m.insert key .weak)) (sites (m.insert key .strong)) := by
  rw [below_iff]
  intro h
  have hkey := h key
  simp only [level_sites, FinMap.get?_insert, if_pos] at hkey
  exact absurd hkey (by decide)

/-! ## Targets -/

theorem contains_iff_level : p.contains key = true ↔ 0 < p.level key := by
  cases p with
  | top => simp [contains]
  | sites m =>
    show (m.get? key).isSome = true ↔ 0 < Strength.level (m.get? key)
    cases m.get? key with
    | none => simp [Strength.level]
    | some strength => cases strength <;> simp [Strength.level]

/-- A greater set contains more keys. -/
theorem contains_of_below (h : Below p q) (hk : p.contains key = true) : q.contains key = true := by
  rw [contains_iff_level] at hk ⊢
  exact Nat.lt_of_lt_of_le hk (below_iff.mp h key)

/-- A join contains the keys of either set. -/
theorem contains_join_iff (h : join p q = .ok r) :
    r.contains key = true ↔ p.contains key = true ∨ q.contains key = true := by
  obtain ⟨r', hr', hlevel⟩ := exists_join p q
  obtain rfl := Except.ok.inj (hr'.symm.trans h)
  simp only [contains_iff_level, hlevel key]
  omega

/-- A meet contains the keys of both. -/
theorem contains_meet_iff (h : meet p q = .ok r) :
    r.contains key = true ↔ p.contains key = true ∧ q.contains key = true := by
  obtain ⟨r', hr', hlevel⟩ := exists_meet p q
  obtain rfl := Except.ok.inj (hr'.symm.trans h)
  simp only [contains_iff_level, hlevel key]
  omega

theorem exists_contains (hp : p ≠ .bottom) : ∃ key, p.contains key = true := by
  cases p with
  | top => exact ⟨⟨"", none⟩, rfl⟩
  | sites m =>
    cases hentries : m.entries with
    | nil => exact absurd (congrArg sites (FinMap.ext hentries)) hp
    | cons e rest =>
      have he : (e.1, e.2) ∈ m.entries := hentries ▸ List.mem_cons_self
      exact ⟨e.1, FinMap.contains_iff.mpr ⟨e.2, FinMap.mem_entries_iff.mp he⟩⟩

theorem level_single (site : AllocationSite) (key : SiteKey) :
    (single site).level key =
      Strength.level (if key = site.key then some site.strength else none) := by
  have hadd := level_addSite .empty site key
  rw [FinMap.get?_empty, Strength.level, Nat.zero_max] at hadd
  exact hadd

theorem contains_single_iff {site : AllocationSite} :
    (single site).contains key = true ↔ key = site.key := by
  rw [contains_iff_level, level_single]
  by_cases hkey : key = site.key
  · cases hs : site.strength <;> simp [hkey, Strength.level]
  · simp [hkey, Strength.level]

/-- **A set has a strong target** iff that is its only site. -/
theorem strongTarget?_eq_some_iff :
    p.strongTarget? = some key ↔ p = single ⟨key, .strong⟩ := by
  constructor
  · intro h
    unfold strongTarget? at h
    split at h
    · cases h
    · split at h
      · rename_i hentries
        obtain rfl := Option.some.inj h
        exact congrArg sites (FinMap.ext hentries)
      · cases h
  · rintro rfl
    rfl

/-- A set below one with a strong target is that set, unless it is empty. -/
theorem strongTarget?_of_below (h : Below p q) (hp : p ≠ .bottom)
    (hq : q.strongTarget? = some key) : p.strongTarget? = some key := by
  rw [strongTarget?_eq_some_iff] at hq ⊢
  subst hq
  obtain ⟨key', hk'⟩ := exists_contains hp
  obtain rfl : key' = key := contains_single_iff.mp (contains_of_below h hk')
  rw [below_iff] at h
  rw [contains_iff_level] at hk'
  refine eq_of_level fun k => Nat.le_antisymm (h k) ?_
  rw [level_single]
  by_cases hk : k = key'
  · rw [if_pos hk, hk]
    exact hk'
  · simp [hk, Strength.level]

end PointsTo

/-- **Points-to sets are a distributive lattice.** No operation fails on any of them; the order is a
partial order with the empty set at its bottom and the set of all sites at its top, joins and meets
are its bounds and distribute over each other. A set that mentions a key weakly is strictly above
the same set with a strong mention. -/
theorem PointsTo.distributive_lattice :
    DistributiveOn (fun _ : PointsTo => True) ∧
      (bottom : PointsTo) = .sites .empty ∧ (AbstractDomains.top : PointsTo) = .top ∧
      ∀ (m : FinMap SiteKey Strength) (key : SiteKey),
        Below (sites (m.insert key .strong)) (sites (m.insert key .weak)) ∧
          ¬ Below (sites (m.insert key .weak)) (sites (m.insert key .strong)) := by
  refine ⟨?_, rfl, rfl, fun m key => ⟨strong_below_weak m key, not_weak_below_strong m key⟩⟩
  exact {
    toLatticeOn := latticeOrder.latticeOn leqDecides
    join_meet := fun _ _ _ => join_meet _ _ _
    meet_join := fun _ _ _ => meet_join _ _ _ }

end AbstractDomains
