import Mathlib.Order.Nat
import AbstractDomains.Proofs.Heap.PointsToLattice
import AbstractDomains.Proofs.JoinLaws

/-!
# Points-to sets from listed sites

A points-to set is built by adding sites one after the other. Which level it reaches under a key is
known by its bounds: a number bounds it iff it bounds the level of each listed site with that key.
So the order of the sites and their repetition make no difference, and a set is to the sites it was
built from what a join is to its operands.

Results:
* `PointsTo.level_ofSites_le_iff`: the bounds of a level.
* `PointsTo.ofSites_congr`, `PointsTo.mem_toList_ofSites`: sets of the same sites are equal, and the
  weakest mention of each key is the one that is kept.
* `PointsTo.joinAll_single`, `PointsTo.join_ofSites`: sets of sites as joins.
* `PointsTo.ofSites_toList`: a set is built from its own sites.
* `PointsTo.ofSites_joins_sites`: all of these.
-/

namespace AbstractDomains.PointsTo

variable {p : PointsTo} {list list' : List AllocationSite} {site : AllocationSite} {key : SiteKey}
  {n : Nat}

/-! ## Bounds of a level -/

/-- Each step of the loop keeps what bounded the level before, if it bounds the added site too. -/
theorem level_foldl_addSite_le_iff (list : List AllocationSite) (map : FinMap SiteKey Strength) :
    (sites (list.foldl addSite map)).level key ≤ n ↔
      (sites map).level key ≤ n ∧
        ∀ site ∈ list, site.key = key → Strength.level (some site.strength) ≤ n := by
  induction list generalizing map with
  | nil => simp
  | cons site rest ih =>
    rw [List.foldl_cons, ih, List.forall_mem_cons, ← and_assoc]
    refine and_congr_left fun _ => ?_
    rw [level_sites, level_addSite, Nat.max_le]
    refine and_congr_right fun _ => ?_
    by_cases hkey : key = site.key
    · simp [hkey]
    · simp [hkey, Ne.symm hkey, Strength.level]

/-- **The bounds of a level** are those of the listed sites with the key. -/
theorem level_ofSites_le_iff : (ofSites list).level key ≤ n ↔
    ∀ site ∈ list, site.key = key → Strength.level (some site.strength) ≤ n := by
  rw [ofSites, level_foldl_addSite_le_iff]
  exact and_iff_right (Nat.zero_le n)

theorem level_le_level_ofSites (h : site ∈ list) :
    Strength.level (some site.strength) ≤ (ofSites list).level site.key :=
  level_ofSites_le_iff.mp (Nat.le_refl _) site h rfl

/-- **The order and repetition of the sites** make no difference. -/
theorem ofSites_congr (h : ∀ site, site ∈ list ↔ site ∈ list') : ofSites list = ofSites list' := by
  refine eq_of_level fun key => eq_of_forall_ge_iff fun n => ?_
  simp only [level_ofSites_le_iff, h]

/-- A level is reached by one of the listed sites. -/
theorem mem_of_level_ofSites
    (h : (ofSites list).level site.key = Strength.level (some site.strength)) : site ∈ list := by
  refine Decidable.byContradiction fun habsent => ?_
  have hbound := level_ofSites_le_iff.mp (Nat.le_of_eq h)
  -- if it is not, the other sites with the key are all less weak, and so one less is a bound
  have hless : (ofSites list).level site.key ≤ Strength.level (some site.strength) - 1 := by
    refine level_ofSites_le_iff.mpr fun other hother hkey => ?_
    have hle := hbound other hother hkey
    have hne : Strength.level (some other.strength) ≠ Strength.level (some site.strength) := by
      intro heq
      have hstrength := Option.some.inj (Strength.level_injective heq)
      obtain rfl : other = site := by
        cases other
        cases site
        exact congr (congrArg AllocationSite.mk hkey) hstrength
      exact habsent hother
    omega
  have hpos : 0 < Strength.level (some site.strength) := by cases site.strength <;> decide
  omega

/-- **The weakest mention** of a key is the one that is kept. -/
theorem mem_toList_ofSites : site ∈ (ofSites list).toList ↔ site ∈ list ∧
    ∀ other ∈ list, other.key = site.key → other.strength.le site.strength = true := by
  simp only [mem_toList, Strength.le_iff]
  constructor
  · intro h
    exact ⟨mem_of_level_ofSites h, level_ofSites_le_iff.mp (Nat.le_of_eq h)⟩
  · rintro ⟨hmem, hbound⟩
    exact Nat.le_antisymm (level_ofSites_le_iff.mpr hbound) (level_le_level_ofSites hmem)

/-! ## Joins -/

/-- A set of sites is below what all of its sites are below. -/
theorem levelsBelow_ofSites_iff :
    LevelsBelow (ofSites list) p ↔ ∀ site ∈ list, LevelsBelow (single site) p := by
  simp only [LevelsBelow, single, level_ofSites_le_iff, List.forall_mem_singleton]
  exact ⟨fun h site hsite key => h key site hsite, fun h key site hsite => h site hsite key⟩

/-- **A set of sites is the join** of the sets of each of them. -/
theorem joinAll_single (list : List AllocationSite) :
    joinAll (list.map single) = .ok (ofSites list) := by
  obtain ⟨c, hc, -, hbelow⟩ :=
    latticeOrder.joinOrder.exists_joinAll (l := list.map single) fun _ _ => trivial
  have heq : c = ofSites list := by
    refine orderOn.eq_of_below_iff trivial trivial fun {q} _ => ?_
    rw [hbelow trivial, List.forall_mem_map, levelsBelow_ofSites_iff]
  rw [hc, heq]

/-- **Sites of two lists** are those of the one list after the other. -/
theorem join_ofSites (list list' : List AllocationSite) :
    join (ofSites list) (ofSites list') = .ok (ofSites (list ++ list')) := by
  refine latticeOrder.joinOrder.join_eq_of_below_iff trivial trivial trivial fun {q} _ => ?_
  simp only [levelsBelow_ofSites_iff, List.forall_mem_append]

/-- **A set is built from its own sites**, unless any site is possible. -/
theorem ofSites_toList (hp : p ≠ .top) : ofSites p.toList = p := by
  cases p with
  | top => exact absurd rfl hp
  | sites map =>
    refine eq_of_level fun key => Nat.le_antisymm ?_ ?_
    · refine level_ofSites_le_iff.mpr fun site hsite hkey => ?_
      rw [← hkey]
      exact Nat.le_of_eq (mem_toList.mp hsite).symm
    · cases hget : map.get? key with
      | none => simp [hget, Strength.level]
      | some strength =>
        have hmem : (⟨key, strength⟩ : AllocationSite) ∈ (sites map).toList :=
          mem_toList.mpr (congrArg Strength.level hget)
        rw [level_sites, hget]
        exact level_le_level_ofSites hmem

/-- **A points-to set is known by the sites it was built from.** It is the join of the sets of each
of them, whatever their order and however often they are repeated. Of each key the weakest mention
is kept. Lists one after the other give the join of their sets, and each set, unless any site is
possible, is built from its own sites. -/
theorem ofSites_joins_sites :
    (∀ list : List AllocationSite, joinAll (list.map single) = .ok (ofSites list)) ∧
    (∀ list list' : List AllocationSite, (∀ site, site ∈ list ↔ site ∈ list') →
      ofSites list = ofSites list') ∧
    (∀ (list : List AllocationSite) (site : AllocationSite), site ∈ (ofSites list).toList ↔
      site ∈ list ∧
        ∀ other ∈ list, other.key = site.key → other.strength.le site.strength = true) ∧
    (∀ list list' : List AllocationSite,
      join (ofSites list) (ofSites list') = .ok (ofSites (list ++ list'))) ∧
    ∀ p : PointsTo, p ≠ .top → ofSites p.toList = p :=
  ⟨joinAll_single, fun _ _ => ofSites_congr, fun _ _ => mem_toList_ofSites, join_ofSites,
    fun _ => ofSites_toList⟩

/-- The first node of a list, mentioned strongly and then weakly, and its head: in another order and
with the head repeated they are the same set, which mentions the node weakly. -/
theorem ofSites_joins_sites_of_list :
    let head : AllocationSite := ⟨⟨"head", none⟩, .strong⟩
    let node : Strength → AllocationSite := fun strength => ⟨⟨"node", none⟩, strength⟩
    let list := [node .strong, head, node .weak]
    (∀ site, site ∈ list ↔ site ∈ [head, node .weak, head, node .strong]) ∧
      ofSites list = ofSites [head, node .weak, head, node .strong] ∧
      ofSites list ≠ .top ∧ ofSites (ofSites list).toList = ofSites list ∧
      node .weak ∈ (ofSites list).toList ∧ node .strong ∉ (ofSites list).toList := by
  intro head node list
  obtain ⟨-, hcongr, hmem, -, hself⟩ := ofSites_joins_sites
  have hsites : ∀ site, site ∈ list ↔ site ∈ [head, node .weak, head, node .strong] := by
    intro site
    simp only [list, List.mem_cons, List.not_mem_nil]
    grind
  have hne : ofSites list ≠ .top := by decide
  refine ⟨hsites, hcongr _ _ hsites, hne, hself _ hne, (hmem list (node .weak)).mpr (by decide), ?_⟩
  rw [hmem]
  decide

end AbstractDomains.PointsTo
