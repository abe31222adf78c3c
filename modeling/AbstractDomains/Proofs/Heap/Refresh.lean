import Mathlib.Order.MinMax
import AbstractDomains.Proofs.Heap.PointsToLattice
import AbstractDomains.Proofs.Heap.Strengths

/-!
# Refreshed points-to sets

A site keeps the strength that its location had when the table issued it, and so do the sets that
are built from it, while the table promotes locations. A refresh raises the level under each key of
a set to that in the table. Levels in the table only grow, so the strengths in a set never exceed
those in the table, and are equal to them after a refresh. As raising a level is monotone, it makes
no difference whether sets are refreshed before or after they are joined and met, nor whether they
have been refreshed before.

Results:
* `SiteTable.level_le_after`, `SiteTable.level_le_of_issued`: levels in the table, and of the sites
  that it issues.
* `PointsTo.level_refresh`, `PointsTo.refresh_distributes`: a refresh, under each key and of
  combined sets.
* `PointsTo.Built.within`: the sets that are built in a run.
* `refresh_is_exact`: what a refresh makes of them, and of all other sets.
-/

namespace AbstractDomains

/-! ## Levels in a table -/

namespace SiteTable

variable {table table' : SiteTable} {calls : List SiteCall} {site : AllocationSite} {key : SiteKey}
  {l : Location} {field : Option Expr}

/-- How much the table allows for a key: nothing if its location has not been seen, more if it is
weak. -/
def level (table : SiteTable) (key : SiteKey) : Nat :=
  Strength.level (table.strength? key.location)

/-- **A call lowers no level.** -/
theorem level_le_after (table : SiteTable) (c : SiteCall) (key : SiteKey) :
    table.level key ≤ (table.after c).level key := by
  rcases table.perform_cases c with ⟨_, -, -, hperform⟩ | ⟨-, table', hperform, -⟩
  · rw [after_of_error hperform]
  · unfold level
    rw [after_updated ⟨table', hperform⟩]
    split
    · -- a promoted location is weak, and one that is resolved keeps its strength if it has one
      cases c.promotes with
      | true => exact Strength.level_le _
      | false => cases table.strength? key.location <;> simp [Strength.level]
    · exact Nat.le_refl _

/-- Nor does a list of calls. -/
theorem level_le_foldl_after (calls : List SiteCall) (table : SiteTable) (key : SiteKey) :
    table.level key ≤ (calls.foldl after table).level key := by
  induction calls generalizing table with
  | nil => exact Nat.le_refl _
  | cons c rest ih => exact Nat.le_trans (level_le_after table c key) (ih (table.after c))

/-- The sites that a table, empty at first, has issued in a run: those of the calls, and the current
sites of keys it was asked for. -/
inductive Issued : List SiteCall → AllocationSite → Prop
  | resolve (calls : List SiteCall) (l : Location) (field : Option Expr) :
    Issued (calls ++ [.resolve l field]) ((run calls).resolve l field).2
  | resolveRevisited {calls : List SiteCall} {l : Location} {field : Option Expr}
    {table : SiteTable} {site : AllocationSite} :
    (run calls).resolveRevisited l field = .ok (table, site) →
    Issued (calls ++ [.resolveRevisited l field]) site
  | current {calls : List SiteCall} {key : SiteKey} {site : AllocationSite} :
    (run calls).site? key = some site → Issued calls site
  | later {calls : List SiteCall} {site : AllocationSite} (c : SiteCall) :
    Issued calls site → Issued (calls ++ [c]) site

theorem key_of_resolveRevisited (h : table.resolveRevisited l field = .ok (table', site)) :
    site.key = ⟨l, field⟩ := by
  obtain ⟨_, -, h⟩ := Analysis.bind_eq_ok.mp h
  obtain ⟨-, rfl⟩ := Prod.mk.inj (Analysis.pure_eq_ok.mp h)
  rfl

/-- **An issued site** is at most as weak as its location is now. -/
theorem level_le_of_issued (h : Issued calls site) :
    Strength.level (some site.strength) ≤ (run calls).level site.key := by
  induction h with
  | resolve calls l field =>
    have hafter : (run (calls ++ [.resolve l field])).strength? l =
        some (((run calls).strength? l).getD .strong) := by
      rw [run_concat]
      exact (strength?_register (run calls) l l).trans (if_pos rfl)
    unfold level
    rw [show ((run calls).resolve l field).2.key.location = l from rfl, hafter]
    exact Nat.le_refl _
  | @resolveRevisited calls l field _ site h =>
    have hafter : (run (calls ++ [.resolveRevisited l field])).strength? l = some .weak := by
      rw [run_concat, weak_after_iff]
      exact .inr ⟨rfl, rfl, _, perform_resolveRevisited⟩
    unfold level
    rw [key_of_resolveRevisited h, hafter]
    exact Strength.level_le _
  | current h =>
    obtain ⟨strength, hs, rfl⟩ := Option.map_eq_some_iff.mp h
    unfold level
    rw [hs]
  | @later calls site c _ ih =>
    rw [run_concat]
    exact Nat.le_trans ih (level_le_after (run calls) c site.key)

end SiteTable

/-! ## Refreshed sets -/

namespace PointsTo

open SiteTable (Issued run)

variable {p q r : PointsTo} {table table' : SiteTable} {key : SiteKey} {site : AllocationSite}
  {calls : List SiteCall}

/-- The level of a key after a refresh: none if it had none, and else no less than in the table. -/
def raise (current level : Nat) : Nat :=
  if level = 0 then 0 else max level current

theorem raise_monotone (current : Nat) : Monotone (raise current) := by
  intro a b hab
  unfold raise
  split <;> split <;> omega

/-- **A refresh raises each level** to that in the table. -/
theorem level_refresh (p : PointsTo) (table : SiteTable) (key : SiteKey) :
    (p.refresh table).level key = raise (table.level key) (p.level key) := by
  cases p with
  | top =>
    have hle : table.level key ≤ 2 := Strength.level_le _
    show 3 = max 3 (table.level key)
    omega
  | sites map =>
    show Strength.level (FinMap.get? (FinMap.filterMap _ map) key) =
      raise (Strength.level (table.strength? key.location)) (Strength.level (map.get? key))
    rw [FinMap.get?_filterMap]
    cases map.get? key with
    | none => rfl
    | some s =>
      have hpos : Strength.level (some s) ≠ 0 := by cases s <;> decide
      unfold raise
      rw [if_neg hpos, Option.bind_some, Strength.level_weaker]
      cases table.strength? key.location with
      | none => simp [Strength.level]
      | some t => rw [Option.getD_some, Nat.max_comm]

/-- A refresh distributes over each operation on sets that combines their levels in a way that
raising them distributes over. -/
theorem refresh_distributes {op : PointsTo → PointsTo → Analysis PointsTo} {f : Nat → Nat → Nat}
    (hop : ∀ p q, ∃ r, op p q = .ok r ∧ ∀ key, r.level key = f (p.level key) (q.level key))
    (hf : ∀ current a b, raise current (f a b) = f (raise current a) (raise current b))
    (p q : PointsTo) (table : SiteTable) :
    ∃ r, op p q = .ok r ∧ op (p.refresh table) (q.refresh table) = .ok (r.refresh table) := by
  obtain ⟨r, hr, hlevel⟩ := hop p q
  obtain ⟨r', hr', hlevel'⟩ := hop (p.refresh table) (q.refresh table)
  have heq : r' = r.refresh table := eq_of_level fun key => by
    rw [hlevel' key, level_refresh, level_refresh, level_refresh, hlevel key, hf]
  exact ⟨r, hr, heq ▸ hr'⟩

/-- A set that was refreshed with an earlier table can be refreshed with a later one as if it had
not been. -/
theorem refresh_refresh (p : PointsTo) (h : ∀ key, table.level key ≤ table'.level key) :
    (p.refresh table).refresh table' = p.refresh table' := by
  refine eq_of_level fun key => ?_
  have hle := h key
  simp only [level_refresh, raise]
  split <;> split <;> omega

theorem below_refresh (p : PointsTo) (table : SiteTable) : Below p (p.refresh table) := by
  rw [below_iff]
  intro key
  rw [level_refresh, raise]
  split <;> omega

/-! ## Sets that are built in a run -/

/-- The sets that are built in a run: from any sites, or from sites that the table has issued, by
joins and meets, and by refreshes at any time. -/
inductive Built : List SiteCall → PointsTo → Prop
  | top (calls : List SiteCall) : Built calls .top
  | single {calls : List SiteCall} {site : AllocationSite} : Issued calls site →
    Built calls (.single site)
  | ofSites {calls : List SiteCall} {list : List AllocationSite} :
    (∀ site ∈ list, Issued calls site) → Built calls (.ofSites list)
  | join {calls : List SiteCall} {p q r : PointsTo} : Built calls p → Built calls q →
    AbstractDomains.join p q = .ok r → Built calls r
  | meet {calls : List SiteCall} {p q r : PointsTo} : Built calls p → Built calls q →
    AbstractDomains.meet p q = .ok r → Built calls r
  | refresh {calls : List SiteCall} {p : PointsTo} : Built calls p →
    Built calls (p.refresh (run calls))
  | later {calls : List SiteCall} {p : PointsTo} (c : SiteCall) : Built calls p →
    Built (calls ++ [c]) p

/-- **The invariant**: under each key, unless any site is possible, the level is at most that in the
table. -/
def Within (table : SiteTable) (p : PointsTo) : Prop :=
  ∀ key, p.level key < 3 → p.level key ≤ table.level key

theorem Within.mono (h : Within table p) (htable : ∀ key, table.level key ≤ table'.level key) :
    Within table' p :=
  fun key hlt => Nat.le_trans (h key hlt) (htable key)

theorem Within.addSite {map : FinMap SiteKey Strength} (h : Within table (sites map))
    (hsite : Strength.level (some site.strength) ≤ table.level site.key) :
    Within table (sites (PointsTo.addSite map site)) := by
  intro key _
  have hold : Strength.level (map.get? key) ≤ table.level key := h key (level_sites_lt map key)
  rw [level_sites, level_addSite]
  split
  case isTrue hkey => exact Nat.max_le.mpr ⟨hold, hkey ▸ hsite⟩
  case isFalse => exact Nat.max_le.mpr ⟨hold, Nat.zero_le _⟩

theorem within_foldl_addSite {list : List AllocationSite}
    (h : ∀ site ∈ list, Strength.level (some site.strength) ≤ table.level site.key)
    {map : FinMap SiteKey Strength} (hmap : Within table (sites map)) :
    Within table (sites (list.foldl PointsTo.addSite map)) := by
  induction list generalizing map with
  | nil => exact hmap
  | cons site rest ih =>
    obtain ⟨hsite, hrest⟩ := List.forall_mem_cons.mp h
    exact ih hrest (hmap.addSite hsite)

theorem within_ofSites {list : List AllocationSite}
    (h : ∀ site ∈ list, Strength.level (some site.strength) ≤ table.level site.key) :
    Within table (.ofSites list) :=
  within_foldl_addSite h fun _ _ => Nat.zero_le _

/-- Each operation that selects one of two levels under each key keeps the invariant. -/
theorem Within.selected {op : PointsTo → PointsTo → Analysis PointsTo} {f : Nat → Nat → Nat}
    (hop : ∀ p q, ∃ r, op p q = .ok r ∧ ∀ key, r.level key = f (p.level key) (q.level key))
    (hf : ∀ a b, f a b = a ∨ f a b = b) (hp : Within table p) (hq : Within table q)
    (h : op p q = .ok r) : Within table r := by
  obtain ⟨r', hr', hlevel⟩ := hop p q
  obtain rfl := Except.ok.inj (hr'.symm.trans h)
  intro key hlt
  rw [hlevel key] at hlt ⊢
  rcases hf (p.level key) (q.level key) with hleft | hright
  · rw [hleft] at hlt ⊢
    exact hp key hlt
  · rw [hright] at hlt ⊢
    exact hq key hlt

theorem Within.refresh (h : Within table p) : Within table (p.refresh table) := by
  intro key hlt
  have hp := h key
  rw [level_refresh, raise] at hlt ⊢
  by_cases hnone : p.level key = 0
  · rw [if_pos hnone]
    exact Nat.zero_le _
  · rw [if_neg hnone] at hlt ⊢
    omega

/-- **The strengths in a set that is built in a run** are at most those in the table. -/
theorem Built.within (h : Built calls p) : p.Within (run calls) := by
  induction h with
  | top calls => exact fun key hlt => absurd hlt (Nat.lt_irrefl 3)
  | single hsite =>
    refine within_ofSites fun site hmem => ?_
    rw [List.mem_singleton.mp hmem]
    exact SiteTable.level_le_of_issued hsite
  | ofSites hlist =>
    exact within_ofSites fun site hmem => SiteTable.level_le_of_issued (hlist site hmem)
  | join _ _ h hp hq => exact .selected exists_join max_choice hp hq h
  | meet _ _ h hp hq => exact .selected exists_meet min_choice hp hq h
  | refresh _ hp => exact hp.refresh
  | @later calls p c _ hp =>
    rw [SiteTable.run_concat]
    exact hp.mono (SiteTable.level_le_after (run calls) c)

/-! ## Strengths in a set -/

theorem Within.exists_strength (h : Within table p) (hsite : site ∈ p.toList) :
    ∃ current, table.strength? site.key.location = some current ∧
      site.strength.le current = true := by
  have hlevel : Strength.level (some site.strength) ≤ table.level site.key := by
    rw [mem_toList] at hsite
    have hle := Strength.level_le (some site.strength)
    exact hsite ▸ h site.key (by omega)
  unfold SiteTable.level at hlevel
  cases hcurrent : table.strength? site.key.location with
  | none =>
    rw [hcurrent] at hlevel
    cases hs : site.strength <;> simp [hs, Strength.level] at hlevel
  | some current => exact ⟨current, rfl, Strength.le_iff.mpr (hcurrent ▸ hlevel)⟩

/-- A refreshed strength is that of the table. -/
theorem Within.strength_of_refresh (h : Within table p) (hsite : site ∈ (p.refresh table).toList) :
    table.strength? site.key.location = some site.strength := by
  refine Strength.level_injective ?_
  have hp := h site.key
  have hle := Strength.level_le (some site.strength)
  have hpos : Strength.level (some site.strength) ≠ 0 := by cases site.strength <;> decide
  rw [mem_toList, level_refresh, raise] at hsite
  show table.level site.key = _
  split at hsite <;> omega

end PointsTo

open SiteTable (run) in
/-- **A refresh is exact, and can be delayed.** In every run, the strengths in a set that is built
from sites the table has issued are at most the current ones of their locations. After a refresh
they are equal, and the keys are the same. Of any set, refreshing it with an earlier table before a
later one changes nothing, and it moves up; and refreshed sets have the refreshed join and meet. -/
theorem refresh_is_exact :
    (∀ calls p, PointsTo.Built calls p →
      (∀ site ∈ p.toList, ∃ current, (run calls).strength? site.key.location = some current ∧
        site.strength.le current = true) ∧
      (∀ site ∈ (p.refresh (run calls)).toList,
        (run calls).strength? site.key.location = some site.strength) ∧
      ∀ key, (p.refresh (run calls)).contains key = p.contains key) ∧
    (∀ (p : PointsTo) (table : SiteTable) (calls : List SiteCall),
      (p.refresh table).refresh (calls.foldl SiteTable.after table) =
        p.refresh (calls.foldl SiteTable.after table)) ∧
    (∀ (p : PointsTo) (table : SiteTable), Below p (p.refresh table)) ∧
    ∀ (p q : PointsTo) (table : SiteTable),
      (∃ r, join p q = .ok r ∧ join (p.refresh table) (q.refresh table) = .ok (r.refresh table)) ∧
      ∃ r, meet p q = .ok r ∧ meet (p.refresh table) (q.refresh table) = .ok (r.refresh table) := by
  refine ⟨fun calls p hp => ⟨fun site => hp.within.exists_strength,
    fun site => hp.within.strength_of_refresh, fun key => PointsTo.contains_refresh⟩,
    fun p table calls => p.refresh_refresh (SiteTable.level_le_foldl_after calls table),
    PointsTo.below_refresh, fun p q table => ⟨?_, ?_⟩⟩
  · exact PointsTo.refresh_distributes PointsTo.exists_join
      (fun current _ _ => (PointsTo.raise_monotone current).map_max) p q table
  · exact PointsTo.refresh_distributes PointsTo.exists_meet
      (fun current _ _ => (PointsTo.raise_monotone current).map_min) p q table

open SiteTable (run) in
/-- The head of a list and its first node, both strong when the set is built. The loop then comes
to the node again, and a refresh makes it weak. -/
theorem refresh_is_exact_of_loop :
    let head : AllocationSite := ⟨⟨"head", none⟩, .strong⟩
    let node : AllocationSite := ⟨⟨"node", none⟩, .strong⟩
    let before : List SiteCall := [.resolve "head" none, .resolve "node" none]
    let calls : List SiteCall := before ++ [.resolveRevisited "node" none]
    let p : PointsTo := .ofSites [head, node]
    PointsTo.Built before p ∧ PointsTo.Built calls p ∧ p.refresh (run before) = p ∧
      p.refresh (run calls) = .ofSites [head, ⟨⟨"node", none⟩, .weak⟩] ∧
      (∃ current, (run calls).strength? "node" = some current ∧
        Strength.le .strong current = true) ∧
      (run calls).strength? "node" = some .weak := by
  intro head node before calls p
  have hhead : SiteTable.Issued before head :=
    .later (.resolve "node" none) (.resolve [] "head" none)
  have hnode : SiteTable.Issued before node := .resolve [.resolve "head" none] "node" none
  have hbefore : PointsTo.Built before p :=
    .ofSites (List.forall_mem_cons.mpr ⟨hhead, List.forall_mem_singleton.mpr hnode⟩)
  have hbuilt : PointsTo.Built calls p := .later _ hbefore
  obtain ⟨hwithin, hrefreshed, -⟩ := refresh_is_exact.1 calls p hbuilt
  exact ⟨hbefore, hbuilt, by decide, by decide, hwithin node (by decide),
    hrefreshed ⟨⟨"node", none⟩, .weak⟩ (by decide)⟩

end AbstractDomains
