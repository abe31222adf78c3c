import AbstractDomains.Error
import AbstractDomains.FinMap

/-!
# Tables of sites

A table records the strength of every location that has allocated an object. A location starts out
strong and is promoted to weak, for good, when its allocation is reached again.
-/

namespace AbstractDomains

/-- The strength of each location seen so far. -/
structure SiteTable where
  strengths : FinMap Location Strength
deriving DecidableEq

namespace SiteTable

/-- The table before any allocation. -/
def empty : SiteTable :=
  ⟨.empty⟩

/-- The strength of a location, if it has been seen. -/
def strength? (table : SiteTable) (location : Location) : Option Strength :=
  table.strengths.get? location

/-- The current site of a key, if its location has been seen. -/
def site? (table : SiteTable) (key : SiteKey) : Option AllocationSite :=
  (table.strength? key.location).map (⟨key, ·⟩)

/-- How many locations have been seen. -/
def size (table : SiteTable) : Nat :=
  table.strengths.size

/-- With a location recorded as strong if it is new. -/
def register (table : SiteTable) (location : Location) : SiteTable :=
  match table.strength? location with
  | some _ => table
  | none => ⟨table.strengths.insert location .strong⟩

/-- The site of the object that a location allocates, or of one of its cells. -/
def resolve (table : SiteTable) (location : Location) (field : Option Expr) :
    SiteTable × AllocationSite :=
  (table.register location, ⟨⟨location, field⟩, (table.strength? location).getD .strong⟩)

/-- Records that the allocation of a key was reached again; its location must have been seen. -/
def promote (table : SiteTable) (key : SiteKey) : Analysis SiteTable :=
  match table.strength? key.location with
  | some _ => .ok ⟨table.strengths.insert key.location .weak⟩
  | none => .error (.unknownSite key)

/-- Resolves a location whose allocation is reached again. -/
def resolveRevisited (table : SiteTable) (location : Location) (field : Option Expr) :
    Analysis (SiteTable × AllocationSite) := do
  let (table, site) := table.resolve location field
  let table ← table.promote site.key
  return (table, ⟨site.key, .weak⟩)

end SiteTable

end AbstractDomains
