import AbstractDomains.Proofs.Heap.Writes
import AbstractDomains.Proofs.Reached

/-!
# Memories that can be reached

The memories an analysis meets store neither top nor bottom either, since a write to a canonical
memory leaves a canonical one.

Results:
* `Memory.canonical_write`, `Memory.canonical_writeThrough`: writes keep memories canonical.
* `Memory.Reached.canonical`: what is reached is canonical.
-/

namespace AbstractDomains.Memory

variable {α : Type} [DecidableEq α] [AbstractLattice α] {P : α → Prop} {R : α → α → Prop}
  {memory memory' : Memory α} {v : α}

theorem canonical_writeThrough (hR : JoinOrder P R) {targets : PointsTo}
    (hmemory : Pointwise.Canonical P memory) (hv : P v)
    (h : memory.writeThrough targets v = .ok memory') : Pointwise.Canonical P memory' :=
  (written_of_writeThrough hR hmemory hv h).canonical

theorem canonical_write (hR : JoinOrder P R) {site : AllocationSite}
    (hmemory : Pointwise.Canonical P memory) (hv : P v) (h : memory.write site v = .ok memory') :
    Pointwise.Canonical P memory' := by
  rw [write_eq_writeThrough] at h
  exact canonical_writeThrough hR hmemory hv h

/-- The memories that are reached from top and bottom by the operations, where values in `P` are
written. -/
inductive Reached (P : α → Prop) : Memory α → Prop
  | top : Reached P .top
  | bottom : Reached P .bottom
  | write {memory memory' : Memory α} {site : AllocationSite} {v : α} :
    Reached P memory → P v → memory.write site v = .ok memory' → Reached P memory'
  | writeThrough {memory memory' : Memory α} {targets : PointsTo} {v : α} :
    Reached P memory → P v → memory.writeThrough targets v = .ok memory' → Reached P memory'
  | join {memory₁ memory₂ memory : Memory α} : Reached P memory₁ → Reached P memory₂ →
    AbstractDomains.join memory₁ memory₂ = .ok memory → Reached P memory
  | meet {memory₁ memory₂ memory : Memory α} : Reached P memory₁ → Reached P memory₂ →
    AbstractDomains.meet memory₁ memory₂ = .ok memory → Reached P memory
  | widen {memory₁ memory₂ memory : Memory α} : Reached P memory₁ → Reached P memory₂ →
    AbstractDomains.widen memory₁ memory₂ = .ok memory → Reached P memory
  | narrow {memory₁ memory₂ memory : Memory α} : Reached P memory₁ → Reached P memory₂ →
    AbstractDomains.narrow memory₁ memory₂ = .ok memory → Reached P memory

/-- **Memories that can be reached are canonical**, over a domain in which widening is joining. -/
theorem Reached.canonical (hR : LatticeOrder P R)
    (hwiden : (AbstractDomains.widen : α → α → Analysis α) = AbstractDomains.join)
    (h : Reached P memory) : Pointwise.Canonical P memory := by
  have hlattice : LatticeOrder (Pointwise.Canonical P : Memory α → Prop)
      (Pointwise.ReadsBelow R) := Pointwise.latticeOrder hR
  induction h with
  | top => exact hlattice.top_mem
  | bottom => exact hlattice.bottom_mem
  | write _ hv h ih => exact canonical_write hR.joinOrder ih hv h
  | writeThrough _ hv h ih => exact canonical_writeThrough hR.joinOrder ih hv h
  | join _ _ h ih₁ ih₂ => exact (hlattice.isJoin_of_join ih₁ ih₂ h).mem
  | widen _ _ h ih₁ ih₂ => exact ih₁.widen hR hwiden ih₂ h
  | meet _ _ h ih₁ ih₂ | narrow _ _ h ih₁ ih₂ => exact (hlattice.isMeet_of_meet ih₁ ih₂ h).mem

end AbstractDomains.Memory
