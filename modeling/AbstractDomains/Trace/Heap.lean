import AbstractDomains.Heap.Memory
import AbstractDomains.Trace.Event

/-!
# Events of the heap

The events of resolving and promoting sites and of writing to them.
-/

namespace AbstractDomains.Trace.Heap

/-- The events of resolving a location. -/
def resolve (table : SiteTable) (location : Location) : List Event :=
  match table.strength? location with
  | some _ => []
  | none => [.allocated location]

/-- The events of promoting the location of a key. -/
def promote (table : SiteTable) (key : SiteKey) : List Event :=
  match table.strength? key.location with
  | some .strong => [.promoted key]
  | _ => []

/-- The events of resolving a location whose allocation is reached again. -/
def resolveRevisited (table : SiteTable) (location : Location) (field : Option Expr) : List Event :=
  resolve table location ++ promote (table.register location) ⟨location, field⟩

/-- The events of writing to a site. -/
def write {α : Type} (memory : Memory α) (site : AllocationSite) : List Event :=
  match memory with
  | .bottom => []
  | .entries _ => [.written site]

end AbstractDomains.Trace.Heap
