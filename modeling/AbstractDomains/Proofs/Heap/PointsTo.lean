import AbstractDomains.Heap.PointsTo
import AbstractDomains.Proofs.Concretization
import AbstractDomains.Proofs.Outcome

/-!
# Sites and points-to sets

How a table of sites changes when locations allocate objects, and what a points-to set says about
the keys a pointer may refer to.

Results:
* `SiteTable.strength?_allocate`: after an allocation, the location is strong iff it was new.
* `PointsTo.contains_single`, `PointsTo.contains_refresh`: the keys of a site alone and of a
  refreshed set.
* `PointsTo.eq_of_strongTarget?`, `PointsTo.strong_of_strongTarget?_refresh`: the only target of a
  refreshed set is the only key it contains, and its location is strong in the table.
-/

namespace AbstractDomains

namespace SiteTable

variable {table table' : SiteTable} {location : Location} {field : Option Expr}
  {site : AllocationSite}

/-- An allocation at a location, which is reached for the first time or again. -/
def allocate (table : SiteTable) (location : Location) (field : Option Expr) :
    Analysis (SiteTable × AllocationSite) :=
  match table.strength? location with
  | none => .ok (table.resolve location field)
  | some _ => table.resolveRevisited location field

/-- A location that has been seen stays as it is. -/
theorem register_of_seen {strength : Strength} (h : table.strength? location = some strength) :
    table.register location = table := by
  unfold register
  rw [h]

theorem resolve_of_seen {strength : Strength} (h : table.strength? location = some strength) :
    table.resolve location field = (table, ⟨⟨location, field⟩, strength⟩) := by
  unfold resolve
  rw [register_of_seen h, h]
  rfl

theorem promote_of_seen {key : SiteKey} {strength : Strength}
    (h : table.strength? key.location = some strength) :
    table.promote key = .ok ⟨table.strengths.insert key.location .weak⟩ := by
  unfold promote
  rw [h]

theorem allocate_of_new (h : table.strength? location = none) :
    table.allocate location field =
      .ok (⟨table.strengths.insert location .strong⟩, ⟨⟨location, field⟩, .strong⟩) := by
  unfold allocate resolve register
  rw [h]
  rfl

theorem allocate_of_seen {strength : Strength} (h : table.strength? location = some strength) :
    table.allocate location field =
      .ok (⟨table.strengths.insert location .weak⟩, ⟨⟨location, field⟩, .weak⟩) := by
  unfold allocate resolveRevisited
  rw [h, resolve_of_seen h]
  have hpromote : table.promote ⟨location, field⟩ = .ok ⟨table.strengths.insert location .weak⟩ :=
    promote_of_seen h
  show table.promote ⟨location, field⟩ >>= _ = _
  rw [hpromote]
  rfl

theorem allocate_succeeds (table : SiteTable) (location : Location) (field : Option Expr) :
    (table.allocate location field).Succeeds := by
  cases hs : table.strength? location with
  | none => exact ⟨_, allocate_of_new hs⟩
  | some strength => exact ⟨_, allocate_of_seen hs⟩

/-- **After an allocation a location is strong iff it was new**, and all others are as before. -/
theorem strength?_allocate (h : table.allocate location field = .ok (table', site))
    (l : Location) : table'.strength? l =
      if l = location then some (if table.strength? location = none then .strong else .weak)
      else table.strength? l := by
  cases hs : table.strength? location with
  | none =>
    rw [allocate_of_new hs] at h
    obtain ⟨rfl, -⟩ := Prod.mk.inj (Except.ok.inj h)
    exact FinMap.get?_insert table.strengths location l .strong
  | some strength =>
    rw [allocate_of_seen hs] at h
    obtain ⟨rfl, -⟩ := Prod.mk.inj (Except.ok.inj h)
    exact FinMap.get?_insert table.strengths location l .weak

end SiteTable

namespace PointsTo

variable {table : SiteTable} {p : PointsTo} {key : SiteKey} {site : AllocationSite}

theorem contains_addSite {map : FinMap SiteKey Strength} :
    (addSite map site).contains key = (decide (key = site.key) || map.contains key) :=
  FinMap.contains_insert

theorem contains_single : (single site).contains site.key = true := by
  show (addSite .empty site).contains site.key = true
  rw [contains_addSite]
  simp

theorem contains_refresh : (p.refresh table).contains key = p.contains key := by
  cases p with
  | top => rfl
  | sites map =>
    show FinMap.contains _ key = map.contains key
    unfold FinMap.contains
    rw [FinMap.get?_filterMap]
    cases map.get? key <;> rfl

theorem isBottom_of_contains (h : p.contains key = true) : isBottom p = false := by
  refine decide_eq_false ?_
  rintro rfl
  exact Bool.false_ne_true h

/-- A set with an only target has a single entry, a strong one. -/
theorem get?_of_strongTarget? {target : SiteKey} (h : p.strongTarget? = some target) :
    ∃ map, p = sites map ∧ ∀ key strength, map.get? key = some strength →
      key = target ∧ strength = .strong := by
  unfold strongTarget? at h
  split at h
  · exact nomatch h
  · split at h
    · rename_i hentries
      obtain rfl := Option.some.inj h
      refine ⟨_, rfl, fun key strength hget => ?_⟩
      rw [← FinMap.mem_entries_iff, hentries, List.mem_singleton] at hget
      exact Prod.mk.inj hget
    · exact nomatch h

/-- **The only target** of a set is the only key that the set contains. -/
theorem eq_of_strongTarget? {target : SiteKey} (h : p.strongTarget? = some target)
    (hk : p.contains key = true) : key = target := by
  obtain ⟨map, rfl, hget⟩ := get?_of_strongTarget? h
  obtain ⟨strength, hs⟩ := FinMap.contains_iff.mp hk
  exact (hget key strength hs).1

/-- **The only target of a refreshed set is strong in the table**, if its location is there. -/
theorem strong_of_strongTarget?_refresh {strength : Strength}
    (h : (p.refresh table).strongTarget? = some key) (hk : p.contains key = true)
    (hs : table.strength? key.location = some strength) : strength = .strong := by
  obtain ⟨map, hp, hget⟩ := get?_of_strongTarget? h
  cases p with
  | top => exact nomatch hp
  | sites old =>
    obtain rfl := PointsTo.sites.inj hp
    obtain ⟨s, hold⟩ := FinMap.contains_iff.mp hk
    have hnew := FinMap.get?_filterMap
      (fun key s => some (((table.strength? key.location).getD s).weaker s)) old key
    rw [hold, Option.bind_some, hs, Option.getD_some] at hnew
    obtain ⟨-, hstrong⟩ := hget _ _ hnew
    cases strength with
    | strong => rfl
    | weak => exact nomatch hstrong

end PointsTo

end AbstractDomains
