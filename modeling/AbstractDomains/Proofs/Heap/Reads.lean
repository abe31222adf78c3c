import Mathlib.Data.Fintype.EquivFin
import AbstractDomains.Proofs.Heap.Reached
import AbstractDomains.Proofs.JoinLaws

/-!
# Reads preserve joins

What is read through a pointer is the least value above the contents of all the cells that the
pointer may refer to. That holds of a pointer that may refer to any cell as well, since there is
always one that was never written. So a pointer with the targets of two others reads the join of
what these read, and in a join of two memories a pointer reads the join of what it reads in each.

Results:
* `Memory.exists_unwritten`: a cell that was never written.
* `Memory.exists_readThrough`: what lies above a read.
* `Memory.reads_preserve_joins`: reads of joins are joins of reads, wherever joins obey their laws.
-/

namespace AbstractDomains.Memory

variable {α : Type} [DecidableEq α] [AbstractLattice α] {C P : α → Prop} {R : α → α → Prop}
  {memory memory' : Memory α} {cells : FinMap SiteKey α} {targets : PointsTo}

/-! ## What lies above a read -/

instance : Infinite SiteKey :=
  Infinite.of_injective (fun location => ⟨location, none⟩) fun _ _ h => (SiteKey.mk.inj h).1

omit [DecidableEq α] [AbstractLattice α] in
/-- There are more cells than any program has written. -/
theorem exists_unwritten (cells : FinMap SiteKey α) : ∃ key, cells.get? key = none := by
  obtain ⟨key, hkey⟩ := Infinite.exists_notMem_finset cells.keys.toFinset
  rw [List.mem_toFinset, FinMap.mem_keys_iff] at hkey
  exact ⟨key, Option.not_isSome_iff_eq_none.mp hkey⟩

theorem readThrough_sites (cells : FinMap SiteKey α) (map : FinMap SiteKey Strength) :
    readThrough (.entries cells) (.sites map) =
      joinAll (map.keys.map (Pointwise.read (.entries cells))) := by
  unfold joinAll
  rw [List.foldlM_map]
  rfl

/-- **A read through a pointer** is below what the contents of all its targets are below. -/
theorem exists_readThrough (hR : JoinOrder P R) (hmemory : Pointwise.Canonical P memory)
    (targets : PointsTo) : ∃ a, memory.readThrough targets = .ok a ∧ P a ∧
      ∀ {d}, P d → (R a d ↔ ∀ key, targets.contains key = true → R (memory.read key) d) := by
  cases memory with
  | bottom =>
    exact ⟨bottom, rfl, hR.bottom_mem, fun hd =>
      iff_of_true (hR.bottom_le hd) fun _ _ => hR.bottom_le hd⟩
  | entries cells =>
    have hread : ∀ key, P (Pointwise.read (.entries cells) key) := hmemory.read_mem hR.toOrderOn
    cases targets with
    | top =>
      obtain ⟨key, hkey⟩ := exists_unwritten cells
      refine ⟨top, rfl, hR.top_mem, fun {d} hd => ⟨fun htop k _ => ?_, fun hall => ?_⟩⟩
      · rw [hR.eq_top hd htop]
        exact hR.le_top (hread k)
      · exact Pointwise.read_of_get?_eq_none hkey ▸ hall key rfl
    | sites map =>
      obtain ⟨a, ha, hmem, hbelow⟩ :=
        hR.exists_joinAll (List.forall_mem_map.mpr fun key (_ : key ∈ map.keys) => hread key)
      refine ⟨a, (readThrough_sites cells map).trans ha, hmem, fun {d} hd => ?_⟩
      simp only [hbelow hd, List.forall_mem_map, FinMap.mem_keys_iff, PointsTo.contains]

/-! ## Reads of joins -/

theorem readThrough_join_targets (hR : JoinOrder P R) (hmemory : Pointwise.Canonical P memory)
    (p q : PointsTo) : ∃ a, (do memory.readThrough (← join p q)) = .ok a ∧
      (do join (← memory.readThrough p) (← memory.readThrough q)) = .ok a := by
  obtain ⟨r, hr, -⟩ := PointsTo.exists_join p q
  obtain ⟨a, ha, hmem, hbelow⟩ := exists_readThrough hR hmemory r
  obtain ⟨b, hb, hmem₁, hbelow₁⟩ := exists_readThrough hR hmemory p
  obtain ⟨c, hc, hmem₂, hbelow₂⟩ := exists_readThrough hR hmemory q
  have hjoin : join b c = .ok a := hR.join_eq_of_below_iff hmem₁ hmem₂ hmem fun {d} hd => by
    simp only [hbelow hd, hbelow₁ hd, hbelow₂ hd, PointsTo.contains_join_iff hr, or_imp,
      forall_and]
  rw [hr, hb, hc]
  exact ⟨a, ha, hjoin⟩

theorem readThrough_join_memories (hR : JoinOrder P R) (hmemory : Pointwise.Canonical P memory)
    (hmemory' : Pointwise.Canonical P memory') (targets : PointsTo) :
    ∃ a, (do readThrough (← join memory memory') targets) = .ok a ∧
      (do join (← memory.readThrough targets) (← memory'.readThrough targets)) = .ok a := by
  obtain ⟨joined, hjoined, hcanonical⟩ := (Pointwise.joinOrder hR).exists_join hmemory hmemory'
  obtain ⟨a, ha, hmem, hbelow⟩ := exists_readThrough hR hcanonical.mem targets
  obtain ⟨b, hb, hmem₁, hbelow₁⟩ := exists_readThrough hR hmemory targets
  obtain ⟨c, hc, hmem₂, hbelow₂⟩ := exists_readThrough hR hmemory' targets
  have hread : ∀ key {d}, P d → (R (joined.read key) d ↔
      R (memory.read key) d ∧ R (memory'.read key) d) := fun key {d} hd =>
    (Pointwise.isJoin_read hR hmemory hmemory' hjoined key).below_iff hR.toOrderOn
      (hmemory.read_mem hR.toOrderOn key) (hmemory'.read_mem hR.toOrderOn key) hd
  have hjoin : join b c = .ok a := hR.join_eq_of_below_iff hmem₁ hmem₂ hmem fun {d} hd => by
    simp only [hbelow hd, hbelow₁ hd, hbelow₂ hd, hread _ hd, imp_and, forall_and]
  rw [hjoined, hb, hc]
  exact ⟨a, ha, hjoin⟩

/-! ## Where bottom is top -/

section Trivial

variable (h : JoinLaws C) (htrivial : (bottom : α) = top)
include h htrivial

/-- A domain with nothing but bottom leaves a canonical memory nothing to store. -/
theorem isTop_of_trivial (hcells : Pointwise.Canonical C (.entries cells)) :
    isTop (Pointwise.entries cells) = true := by
  have hnone : ∀ v ∈ cells.values, isTop v = true := fun v hv => by
    obtain ⟨e, he, rfl⟩ := List.mem_map.mp hv
    obtain ⟨hmem, -, hne⟩ := hcells e.1 e.2 (FinMap.mem_entries_iff.mp he)
    exact absurd (h.eq_bottom_of_trivial htrivial hmem) hne
  exact List.all_eq_true.mpr hnone

theorem exists_join_of_trivial (hmemory : Pointwise.Canonical C memory)
    (hmemory' : Pointwise.Canonical C memory') :
    ∃ joined, join memory memory' = .ok joined ∧ Pointwise.Canonical C joined := by
  unfold join
  rcases upward_cases AbstractLattice.joinProper memory memory' with
    ⟨hjoin, -⟩ | ⟨hjoin, -⟩ | ⟨hproper, -⟩
  · exact ⟨memory, hjoin, hmemory⟩
  · exact ⟨memory', hjoin, hmemory'⟩
  · obtain ⟨cells, _, rfl, -⟩ := Pointwise.entries_of_proper hproper
    have htop := isTop_of_trivial h htrivial hmemory
    exact absurd (hproper.left_top.symm.trans htop) Bool.false_ne_true

theorem readThrough_of_trivial (hmemory : Pointwise.Canonical C memory) (targets : PointsTo) :
    memory.readThrough targets = .ok bottom := by
  have hread : ∀ key, memory.read key = bottom := fun key => by
    cases memory with
    | bottom => rfl
    | entries cells =>
      cases hkey : cells.get? key with
      | none => rw [Pointwise.read_of_get?_eq_none hkey, htrivial]
      | some v =>
        rw [Pointwise.read_of_get?_eq_some hkey]
        exact h.eq_bottom_of_trivial htrivial (hmemory key v hkey).1
  cases memory with
  | bottom => rfl
  | entries cells =>
    cases targets with
    | top => exact congrArg Except.ok htrivial.symm
    | sites map =>
      have hstep : ∀ key ∈ map.keys, ∀ a : α, a = bottom →
          ∃ b, join a (Pointwise.read (.entries cells) key) = .ok b ∧ b = bottom := by
        rintro key - _ rfl
        refine ⟨bottom, ?_, rfl⟩
        rw [hread key]
        exact join_self bottom
      obtain ⟨a, ha, rfl⟩ := Analysis.exists_foldlM hstep rfl
      exact ha

end Trivial

/-! ## Reads preserve joins -/

/-- Reading in memories with values in `C` preserves joins, those of the targets of pointers and
those of the memories. Nothing fails. -/
structure ReadsPreserveJoins (C : α → Prop) : Prop where
  targets : ∀ {memory : Memory α}, Pointwise.Canonical C memory → ∀ p q : PointsTo,
    ∃ a, (do memory.readThrough (← join p q)) = .ok a ∧
      (do join (← memory.readThrough p) (← memory.readThrough q)) = .ok a
  memories : ∀ {memory memory' : Memory α}, Pointwise.Canonical C memory →
    Pointwise.Canonical C memory' → ∀ targets : PointsTo,
    ∃ a, (do readThrough (← join memory memory') targets) = .ok a ∧
      (do join (← memory.readThrough targets) (← memory'.readThrough targets)) = .ok a

/-- **Reads preserve joins**, over any domain whose joins commute and associate. -/
theorem reads_preserve_joins (h : JoinLaws C) : ReadsPreserveJoins C := by
  by_cases htrivial : (bottom : α) = top
  · have hread : ∀ {memory : Memory α} (targets : PointsTo), Pointwise.Canonical C memory →
        memory.readThrough targets = .ok bottom :=
      fun targets hmemory => readThrough_of_trivial h htrivial hmemory targets
    refine ⟨fun {memory} hmemory p q => ?_, fun {memory memory'} hmemory hmemory' targets => ?_⟩
    · obtain ⟨r, hr, -⟩ := PointsTo.exists_join p q
      rw [hr, hread p hmemory, hread q hmemory]
      exact ⟨bottom, hread r hmemory, join_self bottom⟩
    · obtain ⟨joined, hjoined, hcanonical⟩ := exists_join_of_trivial h htrivial hmemory hmemory'
      rw [hjoined, hread targets hmemory, hread targets hmemory']
      exact ⟨bottom, hread targets hcanonical, join_self bottom⟩
  · have hR : JoinOrder C fun a b => join a b = .ok b := h.joinOrder htrivial
    exact ⟨fun hmemory => readThrough_join_targets hR hmemory,
      fun hmemory hmemory' => readThrough_join_memories hR hmemory hmemory'⟩

/-- Joins of signs, of parities and of pairs of both commute and associate. A pointer that refers to
one object or to those of a loop reads what can be in either; and where the loop is not known in one
of two memories, it is not in their join. -/
theorem reads_preserve_joins_of_numbers :
    ReadsPreserveJoins (fun _ : Sign => True) ∧ ReadsPreserveJoins (fun _ : Parity => True) ∧
    ReadsPreserveJoins SignParity.Built ∧
    let one : SiteKey := ⟨"one", none⟩
    let loop : SiteKey := ⟨"loop", none⟩
    let object : PointsTo := .single ⟨one, .strong⟩
    let objects : PointsTo := .single ⟨loop, .weak⟩
    let memory : Memory Sign := .entries (.ofList [(one, .zero), (loop, .plus)])
    let memory' : Memory Sign := .entries (.ofList [(one, .minus)])
    ((do memory.readThrough (← join object objects)) = .ok .zeroPlus ∧
      (do join (← memory.readThrough object) (← memory.readThrough objects)) = .ok .zeroPlus) ∧
    ((do readThrough (← join memory memory') object) = .ok .zeroMinus ∧
      (do join (← memory.readThrough object) (← memory'.readThrough object)) = .ok .zeroMinus) ∧
    (do readThrough (← join memory memory') objects) = .ok .top := by
  have hsigns := reads_preserve_joins Sign.latticeOrder.joinOrder.joinLaws
  refine ⟨hsigns, reads_preserve_joins Parity.latticeOrder.joinOrder.joinLaws,
    reads_preserve_joins SignParity.domainOn.toLatticeOrder.joinOrder.joinLaws, ?_⟩
  intro one loop object objects memory memory'
  have hmemory : Pointwise.Canonical (fun _ => True) memory :=
    Pointwise.canonical_ofList (by decide)
  have hmemory' : Pointwise.Canonical (fun _ => True) memory' :=
    Pointwise.canonical_ofList (by decide)
  have hboth : (do memory.readThrough (← join object objects)) = .ok .zeroPlus := by decide
  have hobject : (do readThrough (← join memory memory') object) = .ok .zeroMinus := by decide
  have hobjects : (do readThrough (← join memory memory') objects) = .ok .top := by decide
  obtain ⟨a, ha, hjoin⟩ := hsigns.targets hmemory object objects
  obtain ⟨b, hb, hjoin'⟩ := hsigns.memories hmemory hmemory' object
  obtain rfl := Except.ok.inj (hboth.symm.trans ha)
  obtain rfl := Except.ok.inj (hobject.symm.trans hb)
  exact ⟨⟨ha, hjoin⟩, ⟨hb, hjoin'⟩, hobjects⟩

end AbstractDomains.Memory
