import AbstractDomains.Proofs.Heap.Memory
import AbstractDomains.Proofs.Heap.PointsToLattice
import AbstractDomains.Proofs.PointwiseSet

/-!
# What writes leave

After a write through a pointer, a cell reads as the least value above what it held before and above
the new value. Of the two, the old contents count unless they are replaced, which happens to the
only target of a pointer if it is strong, and the new value counts if the cell is a target. That
describes a write on all cells at once (`Memory.Written`), whichever way it is carried out. Both
conditions get weaker when the pointer has more targets, so writes are monotone.

Results:
* `Memory.exists_accumulate`, `Memory.exists_accumulate_all`: adding to one cell, and to several.
* `Memory.exists_writeThrough`, `Memory.write_eq_writeThrough`: writes through pointers, and to
  sites.
* `Memory.writeThrough_monotone`: writes are monotone in the memory, in the targets and in the
  value.
-/

namespace AbstractDomains.Memory

variable {α : Type} [DecidableEq α] [AbstractLattice α] {P : α → Prop} {R : α → α → Prop}
  {memory memory' : Memory α} {cells cells' : FinMap SiteKey α} {targets : PointsTo} {key : SiteKey}
  {v : α}

/-! ## Adding to the contents of cells -/

/-- **A value that is added to a cell** is joined to what the cell holds. -/
theorem exists_accumulate (hR : JoinOrder P R) (hcells : Pointwise.Canonical P (.entries cells))
    (hv : P v) (key : SiteKey) :
    ∃ cells', accumulate cells key v = .ok cells' ∧ Pointwise.Canonical P (.entries cells') ∧
      ∀ k {d}, P d → (R (Pointwise.read (.entries cells') k) d ↔
        R (Pointwise.read (.entries cells) k) d ∧ (k = key → R v d)) := by
  cases hold : cells.get? key with
  | none =>
    refine ⟨cells, by rw [accumulate, hold], hcells, fun k {d} hd => ?_⟩
    refine (and_iff_left_of_imp fun hread hk => ?_).symm
    -- a cell that is not in the map reads as top already
    rw [hk, Pointwise.read_of_get?_eq_none hold] at hread
    exact hR.eq_top hd hread ▸ hR.le_top hv
  | some old =>
    obtain ⟨hmem, -, hbottom⟩ := hcells key old hold
    obtain ⟨next, hnext, hjoin⟩ := hR.exists_join hmem hv
    have hne : next ≠ bottom := by
      rintro rfl
      exact hbottom (hR.eq_bottom hmem hjoin.left)
    have hb : isBottom next = false := hR.isBottom_eq_false hjoin.mem hne
    have hset : Pointwise.set (.entries cells) key next =
        .entries (if isTop next then cells.erase key else cells.insert key next) := by
      simp only [Pointwise.set, hb, Bool.false_eq_true, if_false]
      split <;> rfl
    have hstep : accumulate cells key v =
        .ok (if isTop next then cells.erase key else cells.insert key next) := by
      simp [accumulate, hold, hnext, bind, Except.bind, pure, Except.pure]
    refine ⟨_, hstep, hset ▸ hcells.set hR.toOrderOn hjoin.mem, fun k {d} hd => ?_⟩
    rw [← hset]
    by_cases hk : k = key
    · subst hk
      rw [Pointwise.read_set_self hR.toOrderOn (Pointwise.entries_ne_bottom cells) hjoin.mem hb,
        Pointwise.read_of_get?_eq_some hold, hjoin.below_iff hR.toOrderOn hmem hv hd]
      simp
    · rw [Pointwise.read_set_of_ne hk hb]
      simp [hk]

/-- **A value that is added to several cells**, one after the other. -/
theorem exists_accumulate_all (hR : JoinOrder P R) (hv : P v) :
    ∀ (keys : List SiteKey) {cells : FinMap SiteKey α}, Pointwise.Canonical P (.entries cells) →
      ∃ cells', keys.foldlM (accumulate · · v) cells = .ok cells' ∧
        Pointwise.Canonical P (.entries cells') ∧
        ∀ k {d}, P d → (R (Pointwise.read (.entries cells') k) d ↔
          R (Pointwise.read (.entries cells) k) d ∧ (k ∈ keys → R v d))
  | [], cells, hcells => ⟨cells, rfl, hcells, by simp⟩
  | key :: keys, cells, hcells => by
    obtain ⟨next, hnext, hcanonical, hfirst⟩ := exists_accumulate hR hcells hv key
    obtain ⟨cells', hcells', hcanonical', hrest⟩ := exists_accumulate_all hR hv keys hcanonical
    refine ⟨cells', ?_, hcanonical', fun k {d} hd => ?_⟩
    · rw [List.foldlM_cons, hnext]
      exact hcells'
    · rw [hrest k hd, hfirst k hd, and_assoc, List.mem_cons, or_imp]

/-! ## Writes -/

/-- What a write of `v` through a pointer to `targets` leaves. Under each key that is the least
value above the old one, unless that is replaced, and above `v`, if the key is a target. -/
structure Written (P : α → Prop) (R : α → α → Prop) (memory : Memory α) (targets : PointsTo) (v : α)
    (memory' : Memory α) : Prop where
  canonical : Pointwise.Canonical P memory'
  eq_bottom_iff : memory' = .bottom ↔ memory = .bottom ∨ targets = .bottom ∨ v = bottom
  read_below_iff : memory' ≠ .bottom → ∀ key {d}, P d → (R (memory'.read key) d ↔
    (targets.strongTarget? ≠ some key → R (memory.read key) d) ∧
      (targets.contains key = true → R v d))

theorem written_bottom (h : memory = .bottom ∨ targets = .bottom ∨ v = bottom) :
    Written P R memory targets v .bottom where
  canonical := trivial
  eq_bottom_iff := iff_of_true rfl h
  read_below_iff hne := absurd rfl hne

/-- The only target of a pointer is set to the new value. -/
theorem written_set (hR : OrderOn P R) (hcells : Pointwise.Canonical P (.entries cells)) (hv : P v)
    (hne : v ≠ bottom) (htarget : targets.strongTarget? = some key) :
    Written P R (.entries cells) targets v (Pointwise.set (.entries cells) key v) := by
  have hentries : (.entries cells : Memory α) ≠ .bottom := Pointwise.entries_ne_bottom cells
  have hb : isBottom v = false := hR.isBottom_eq_false hv hne
  obtain rfl := PointsTo.strongTarget?_eq_some_iff.mp htarget
  have htargets : PointsTo.single ⟨key, .strong⟩ ≠ .bottom := by
    intro h
    cases h
  refine ⟨hcells.set hR hv, ?_, fun _ k {d} hd => ?_⟩
  · simp [Pointwise.set_eq_bottom_iff, hentries, htargets, hne, hb]
  · rw [htarget, PointsTo.contains_single_iff]
    by_cases hk : k = key
    · subst hk
      rw [Pointwise.read_set_self hR hentries hv hb]
      simp
    · rw [Pointwise.read_set_of_ne hk hb]
      simp [hk, Ne.symm hk]

/-- Without such a target, the new value is added to all cells the pointer can refer to. -/
theorem written_accumulate_all (hR : JoinOrder P R)
    (hcells : Pointwise.Canonical P (.entries cells)) (hv : P v) (hne : v ≠ bottom)
    (htargets : targets ≠ .bottom) (htarget : targets.strongTarget? = none) :
    ∃ cells', (targetKeys cells targets).foldlM (accumulate · · v) cells = .ok cells' ∧
      Written P R (.entries cells) targets v (.entries cells') := by
  obtain ⟨cells', hcells', hcanonical, hread⟩ :=
    exists_accumulate_all hR hv (targetKeys cells targets) hcells
  refine ⟨cells', hcells', hcanonical, ?_, fun _ k {d} hd => ?_⟩
  · simp [htargets, hne]
  · rw [hread k hd, htarget, imp_iff_right (Option.some_ne_none k).symm]
    refine and_congr_right fun hold => ⟨fun hmem hk => ?_, fun hk hmem => ?_⟩
    · rcases mem_targetKeys_or hk with hk | hnone
      · exact hmem hk
      · rw [Pointwise.read_of_get?_eq_none hnone] at hold
        exact hR.eq_top hd hold ▸ hR.le_top hv
    · exact hk (contains_of_mem_targetKeys hmem)

/-- **A write through a pointer**, carried out on any canonical memory. -/
theorem exists_writeThrough (hR : JoinOrder P R) (hmemory : Pointwise.Canonical P memory)
    (hv : P v) (targets : PointsTo) :
    ∃ memory', memory.writeThrough targets v = .ok memory' ∧
      Written P R memory targets v memory' := by
  cases memory with
  | bottom => exact ⟨.bottom, rfl, written_bottom (.inl rfl)⟩
  | entries cells =>
    by_cases htargets : targets = .bottom
    · subst htargets
      exact ⟨.bottom, rfl, written_bottom (.inr (.inl rfl))⟩
    by_cases hne : v = bottom
    · subst hne
      have hb : isBottom (bottom : α) = true := (hR.isBottom_iff hv).mpr rfl
      refine ⟨.bottom, ?_, written_bottom (.inr (.inr rfl))⟩
      simp [writeThrough, hb]
    obtain ⟨key, hkey⟩ := PointsTo.exists_contains htargets
    rw [writeThrough_eq hkey (hR.isBottom_eq_false hv hne)]
    cases htarget : targets.strongTarget? with
    | some target => exact ⟨_, rfl, written_set hR.toOrderOn hmemory hv hne htarget⟩
    | none =>
      obtain ⟨cells', hcells', hwritten⟩ :=
        written_accumulate_all hR hmemory hv hne htargets htarget
      refine ⟨_, ?_, hwritten⟩
      rw [hcells']
      rfl

theorem written_of_writeThrough (hR : JoinOrder P R) (hmemory : Pointwise.Canonical P memory)
    (hv : P v) (h : memory.writeThrough targets v = .ok memory') :
    Written P R memory targets v memory' := by
  obtain ⟨memory'', h', hwritten⟩ := exists_writeThrough hR hmemory hv targets
  exact Except.ok.inj (h'.symm.trans h) ▸ hwritten

/-- **A write to a site** is one through a pointer that refers to nothing else. -/
theorem write_eq_writeThrough (memory : Memory α) (site : AllocationSite) (v : α) :
    memory.write site v = memory.writeThrough (.single site) v := by
  cases memory with
  | bottom => rfl
  | entries cells =>
    obtain ⟨key, strength⟩ := site
    cases hv : isBottom v with
    | true =>
      cases strength <;>
        simp [write, writeThrough, AllocationSite.allowsStrongUpdate, Pointwise.set, hv]
    | false =>
      rw [writeThrough_eq PointsTo.contains_single hv]
      cases strength with
      | strong => rfl
      | weak =>
        have hwrite : write (.entries cells) ⟨key, .weak⟩ v =
            (do return .entries (← accumulate cells key v)) := by
          simp [write, AllocationSite.allowsStrongUpdate, Strength.isWeak, hv]
        have hkeys : [key].foldlM (accumulate · · v) cells = accumulate cells key v := by simp
        rw [hwrite, ← hkeys]
        rfl

/-! ## Writes are monotone -/

/-- What is written is below if all that it depends on is. -/
theorem Written.mono (hR : OrderOn P R) {memory₁ memory₂ memory₁' memory₂' : Memory α}
    {targets₁ targets₂ : PointsTo} {v₁ v₂ : α} (h₁ : Written P R memory₁ targets₁ v₁ memory₁')
    (h₂ : Written P R memory₂ targets₂ v₂ memory₂') (hm₁ : Pointwise.Canonical P memory₁)
    (hm₂ : Pointwise.Canonical P memory₂) (hv₁ : P v₁) (hv₂ : P v₂)
    (hmemory : Pointwise.ReadsBelow R memory₁ memory₂) (htargets : Below targets₁ targets₂)
    (hv : R v₁ v₂) : Pointwise.ReadsBelow R memory₁' memory₂' := by
  refine or_iff_not_imp_left.mpr fun hne₁ => ?_
  obtain ⟨hmne, htne, hvne⟩ : memory₁ ≠ .bottom ∧ targets₁ ≠ .bottom ∧ v₁ ≠ bottom := by
    simpa [not_or] using mt h₁.eq_bottom_iff.mpr hne₁
  obtain ⟨hmne₂, hreads⟩ := hmemory.resolve_left hmne
  have hne₂ : memory₂' ≠ .bottom := by
    rw [Ne, h₂.eq_bottom_iff]
    rintro (hbottom | rfl | rfl)
    · exact hmne₂ hbottom
    · exact htne (PointsTo.orderOn.eq_bottom trivial (PointsTo.below_iff.mp htargets))
    · exact hvne (hR.eq_bottom hv₁ hv)
  refine ⟨hne₂, fun key => ?_⟩
  have hold₁ : P (memory₁.read key) := hm₁.read_mem hR key
  have hold₂ : P (memory₂.read key) := hm₂.read_mem hR key
  have hnew₂ : P (memory₂'.read key) := h₂.canonical.read_mem hR key
  obtain ⟨hkept, hadded⟩ := (h₂.read_below_iff hne₂ key hnew₂).mp (hR.refl hnew₂)
  refine (h₁.read_below_iff hne₁ key hnew₂).mpr ⟨fun htarget => ?_, fun hk => ?_⟩
  · -- a cell that is replaced through the greater set is replaced through the lesser one
    have htarget₂ : targets₂.strongTarget? ≠ some key :=
      mt (PointsTo.strongTarget?_of_below htargets htne) htarget
    exact hR.trans hold₁ hold₂ hnew₂ (hreads key) (hkept htarget₂)
  · exact hR.trans hv₁ hv₂ hnew₂ hv (hadded (PointsTo.contains_of_below htargets hk))

/-- **Writes are monotone in every argument.** Over a lattice of values, no write to a canonical
memory fails, and one to a greater memory, through a pointer with more or weaker targets, of a
greater value leaves a greater memory. -/
theorem writeThrough_monotone {C : α → Prop} (h : LatticeOn C) {memory₁ memory₂ : Memory α}
    {targets₁ targets₂ : PointsTo} {v₁ v₂ : α} (hm₁ : Pointwise.Canonical C memory₁)
    (hm₂ : Pointwise.Canonical C memory₂) (hv₁ : C v₁) (hv₂ : C v₂)
    (hmemory : Below memory₁ memory₂) (htargets : Below targets₁ targets₂) (hv : Below v₁ v₂) :
    ∃ memory₁' memory₂', memory₁.writeThrough targets₁ v₁ = .ok memory₁' ∧
      memory₂.writeThrough targets₂ v₂ = .ok memory₂' ∧ Below memory₁' memory₂' := by
  have hdecides : LeqDecides (Pointwise.Canonical C : Memory α → Prop)
      (Pointwise.ReadsBelow Below) := Pointwise.leqDecides h.toOrderOn h.leqDecides
  obtain ⟨memory₁', h₁, hw₁⟩ := exists_writeThrough h.joinOrder hm₁ hv₁ targets₁
  obtain ⟨memory₂', h₂, hw₂⟩ := exists_writeThrough h.joinOrder hm₂ hv₂ targets₂
  have hreads : Pointwise.ReadsBelow Below memory₁ memory₂ :=
    (hdecides.below_iff hm₁ hm₂).mp hmemory
  have hreads' : Pointwise.ReadsBelow Below memory₁' memory₂' :=
    hw₁.mono h.toOrderOn hw₂ hm₁ hm₂ hv₁ hv₂ hreads htargets hv
  exact ⟨memory₁', memory₂', h₁, h₂, (hdecides.below_iff hw₁.canonical hw₂.canonical).mpr hreads'⟩

/-- Zero replaces what the only object of one site holds. Where less is known of that object, of the
number and of the pointer, which may refer to the objects of a loop as well, it is added to what
those hold. -/
theorem writeThrough_monotone_of_loop :
    let one : SiteKey := ⟨"one", none⟩
    let loop : SiteKey := ⟨"loop", none⟩
    let memory₁ : Memory Sign := .entries (.ofList [(one, .plus), (loop, .minus)])
    let memory₂ : Memory Sign := .entries (.ofList [(loop, .minus)])
    let targets₁ : PointsTo := .single ⟨one, .strong⟩
    let targets₂ : PointsTo := .ofSites [⟨one, .strong⟩, ⟨loop, .weak⟩]
    let memory₁' : Memory Sign := .entries (.ofList [(one, .zero), (loop, .minus)])
    let memory₂' : Memory Sign := .entries (.ofList [(loop, .zeroMinus)])
    Below memory₁ memory₂ ∧ Below targets₁ targets₂ ∧ Below Sign.zero Sign.zeroMinus ∧
      memory₁.writeThrough targets₁ .zero = .ok memory₁' ∧
      memory₂.writeThrough targets₂ .zeroMinus = .ok memory₂' ∧ Below memory₁' memory₂' := by
  intro one loop memory₁ memory₂ targets₁ targets₂ memory₁' memory₂'
  have hm₁ : Pointwise.Canonical (fun _ => True) memory₁ := Pointwise.canonical_ofList (by decide)
  have hm₂ : Pointwise.Canonical (fun _ => True) memory₂ := Pointwise.canonical_ofList (by decide)
  have hmemory : leq memory₁ memory₂ = .ok true := by decide
  have htargets : leq targets₁ targets₂ = .ok true := by decide
  have hv : Below Sign.zero Sign.zeroMinus := rfl
  have hfirst : memory₁.writeThrough targets₁ .zero = .ok memory₁' := by decide
  have hsecond : memory₂.writeThrough targets₂ .zeroMinus = .ok memory₂' := by decide
  obtain ⟨memory₁'', memory₂'', h₁, h₂, hbelow⟩ :=
    writeThrough_monotone Sign.latticeOn hm₁ hm₂ trivial trivial hmemory htargets hv
  obtain rfl := Except.ok.inj (hfirst.symm.trans h₁)
  obtain rfl := Except.ok.inj (hsecond.symm.trans h₂)
  exact ⟨hmemory, htargets, hv, hfirst, hsecond, hbelow⟩

end AbstractDomains.Memory
