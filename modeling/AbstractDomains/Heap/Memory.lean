import AbstractDomains.Heap.PointsTo
import AbstractDomains.Pointwise

/-!
# Heap memories

A memory describes the contents of the heap, one value for each cell. A cell that was never written
can hold anything. A write to a strong site replaces its contents; one to a weak site adds to them,
since it reaches only some of the objects the site stands for.
-/

namespace AbstractDomains

/-- What is known of the cells of the heap. -/
abbrev Memory (α : Type) :=
  Pointwise SiteKey α

namespace Memory

variable {α : Type} [DecidableEq α] [AbstractLattice α]

/-- A cell that may or may not be written; one that is not in the map could hold anything before. -/
def accumulate (cells : FinMap SiteKey α) (key : SiteKey) (v : α) : Analysis (FinMap SiteKey α) :=
  match cells.get? key with
  | none => .ok cells
  | some old => do
    let next ← join old v
    return if isTop next then cells.erase key else cells.insert key next

/-- After a value is written to a site. -/
def write (memory : Memory α) (site : AllocationSite) (v : α) : Analysis (Memory α) :=
  match memory with
  | .bottom => .ok .bottom
  | .entries cells =>
    if site.allowsStrongUpdate then .ok (memory.set site.key v)
    else if isBottom v then .ok .bottom
    else do return .entries (← accumulate cells site.key v)

/--
After a value is written to the cell a pointer refers to. A pointer without targets cannot be
written through, so no execution is left.
-/
def writeThrough (memory : Memory α) (targets : PointsTo) (v : α) : Analysis (Memory α) :=
  match memory with
  | .bottom => .ok .bottom
  | .entries cells =>
    if isBottom targets || isBottom v then .ok .bottom
    else match targets.strongTarget? with
      | some key => .ok (memory.set key v)
      | none => do
        let keys := match targets with
          | .top => cells.keys
          | .sites map => map.keys
        return .entries (← keys.foldlM (fun cells key => accumulate cells key v) cells)

/-- What the cells a pointer may refer to hold. -/
def readThrough (memory : Memory α) (targets : PointsTo) : Analysis α :=
  match memory, targets with
  | .bottom, _ => .ok bottom
  | .entries _, .top => .ok top
  | .entries _, .sites map => map.keys.foldlM (fun value key => join value (memory.read key)) bottom

end Memory

end AbstractDomains
