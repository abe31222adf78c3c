import AbstractDomains.Proofs.Heap.Reached
import AbstractDomains.Proofs.JoinLaws

/-!
# Updates that commute

The order of two updates of a memory matters only if the later one replaces what the earlier one
wrote. Only the single target of a pointer is ever replaced, and only if it is strong. Weak updates
replace nothing, so any number of them can be carried out in any order. Writes to two different
sites can be exchanged too, since neither is to the cell that the other one may replace.

Results:
* `Memory.Written.read_below_iff_then`: what two updates leave, the second of which spares what the
  first one wrote.
* `Memory.exists_update`, `Memory.update_swap`: one update, and two that spare each other.
* `Memory.updates_commute`: weak updates in any order, and writes to different sites, wherever joins
  obey their laws.
-/

namespace AbstractDomains.Memory

variable {α : Type} [DecidableEq α] [AbstractLattice α] {C P : α → Prop} {R : α → α → Prop}
  {memory : Memory α} {v : α}

/-! ## Updates -/

/-- A write to a site, or through a pointer. -/
inductive Update (α : Type) where
  | write (site : AllocationSite) (v : α)
  | writeThrough (targets : PointsTo) (v : α)

namespace Update

variable {α : Type} {u : Update α}

/-- The value that is written. -/
def value : Update α → α
  | write _ v => v
  | writeThrough _ v => v

/-- The sites that may be written. -/
def targets : Update α → PointsTo
  | write site _ => .single site
  | writeThrough targets _ => targets

/-- Whether an update is to a weak site, or through a pointer without a strong target. -/
def isWeak : Update α → Bool
  | write site _ => site.strength.isWeak
  | writeThrough targets _ => targets.strongTarget?.isNone

theorem isWeak_iff : u.isWeak = true ↔ u.targets.strongTarget? = none := by
  cases u with
  | write site v =>
    obtain ⟨key, strength⟩ := site
    cases strength with
    | strong => exact iff_of_false Bool.false_ne_true (Option.some_ne_none key)
    | weak => exact iff_of_true rfl rfl
  | writeThrough targets v => exact Option.isNone_iff_eq_none

/-- The cell that an update replaces, if it replaces one, is none that the other update may
write. -/
def Spares (u u' : Update α) : Prop :=
  ∀ key, u.targets.strongTarget? = some key → u'.targets.contains key = false

/-- A weak update spares everything. -/
theorem spares_of_isWeak (hu : u.isWeak = true) (u' : Update α) : u.Spares u' := by
  intro key htarget
  rw [isWeak_iff.mp hu] at htarget
  cases htarget

/-- A write to a site spares all others. -/
theorem spares_write {site site' : AllocationSite} {v v' : α} (hkey : site.key ≠ site'.key) :
    (write site v).Spares (write site' v') := by
  intro key htarget
  rw [PointsTo.eq_of_strongTarget? htarget PointsTo.contains_single] at hkey
  exact Bool.eq_false_iff.mpr fun hcontains => hkey (PointsTo.contains_single_iff.mp hcontains)

end Update

/-- After an update. -/
def update (memory : Memory α) : Update α → Analysis (Memory α)
  | .write site v => memory.write site v
  | .writeThrough targets v => memory.writeThrough targets v

/-- After several updates, one after the other. -/
def updateAll (memory : Memory α) (updates : List (Update α)) : Analysis (Memory α) :=
  updates.foldlM update memory

theorem update_eq_writeThrough (memory : Memory α) (u : Update α) :
    memory.update u = memory.writeThrough u.targets u.value := by
  cases u with
  | write site v => exact write_eq_writeThrough memory site v
  | writeThrough targets v => rfl

/-- No execution is left after a write of nothing, whatever the memory. -/
theorem writeThrough_of_isBottom (hv : isBottom v = true) (memory : Memory α) (targets : PointsTo) :
    memory.writeThrough targets v = .ok .bottom := by
  cases memory with
  | bottom => rfl
  | entries cells => simp [writeThrough, hv]

/-! ## Two updates -/

variable {memory₁ memory₂ memory₁₂ memory₂₁ : Memory α} {u₁ u₂ : Update α}

/-- **Two updates**, the second of which spares what the first one wrote. Their order plays no part
in what is left: the old contents count where neither replaces them, and each new value counts in
its own targets. -/
theorem Written.read_below_iff_then (h₁ : Written P R memory u₁.targets u₁.value memory₁)
    (h₁₂ : Written P R memory₁ u₂.targets u₂.value memory₁₂) (hspares : u₂.Spares u₁)
    (hne : memory₁₂ ≠ .bottom) (key : SiteKey) {d : α} (hd : P d) :
    R (memory₁₂.read key) d ↔
      (u₁.targets.strongTarget? ≠ some key ∧ u₂.targets.strongTarget? ≠ some key →
        R (memory.read key) d) ∧
      (u₁.targets.contains key = true → R u₁.value d) ∧
        (u₂.targets.contains key = true → R u₂.value d) := by
  have hne₁ : memory₁ ≠ .bottom := fun h => hne (h₁₂.eq_bottom_iff.mpr (.inl h))
  rw [h₁₂.read_below_iff hne key hd, h₁.read_below_iff hne₁ key hd]
  by_cases hk : u₂.targets.strongTarget? = some key
  · simp [hk, hspares key hk]
  · simp [hk, and_assoc]

/-- Updates that spare each other leave the same in either order. -/
theorem Written.eq_of_swapped (hR : OrderOn P R)
    (h₁ : Written P R memory u₁.targets u₁.value memory₁)
    (h₁₂ : Written P R memory₁ u₂.targets u₂.value memory₁₂)
    (h₂ : Written P R memory u₂.targets u₂.value memory₂)
    (h₂₁ : Written P R memory₂ u₁.targets u₁.value memory₂₁) (hspares : u₁.Spares u₂)
    (hspares' : u₂.Spares u₁) : memory₁₂ = memory₂₁ := by
  have hbottom : memory₁₂ = .bottom ↔ memory₂₁ = .bottom := by
    rw [h₁₂.eq_bottom_iff, h₁.eq_bottom_iff, h₂₁.eq_bottom_iff, h₂.eq_bottom_iff, or_right_comm]
  by_cases hne : memory₁₂ = .bottom
  · rw [hne, hbottom.mp hne]
  · have hne' : memory₂₁ ≠ .bottom := mt hbottom.mpr hne
    refine h₁₂.canonical.eq_of_read h₂₁.canonical hne hne' fun key => ?_
    have hread : P (memory₁₂.read key) := h₁₂.canonical.read_mem hR key
    have hread' : P (memory₂₁.read key) := h₂₁.canonical.read_mem hR key
    refine hR.eq_of_below_iff hread hread' fun {d} hd => ?_
    rw [h₁.read_below_iff_then h₁₂ hspares' hne key hd,
      h₂.read_below_iff_then h₂₁ hspares hne' key hd,
      and_comm (a := u₁.targets.strongTarget? ≠ some key),
      and_comm (a := u₁.targets.contains key = true → _)]

/-! ## Updates over joins that obey their laws -/

/-- An update of a canonical memory succeeds and leaves one. -/
theorem exists_update (h : JoinLaws C) (hmemory : Pointwise.Canonical C memory) {u : Update α}
    (hu : C u.value) :
    ∃ memory', memory.update u = .ok memory' ∧ Pointwise.Canonical C memory' := by
  rw [update_eq_writeThrough]
  by_cases hne : u.value = bottom
  · exact ⟨.bottom, writeThrough_of_isBottom (hne ▸ h.isBottom_bottom) memory u.targets, trivial⟩
  · obtain ⟨memory', hmemory', hwritten⟩ :=
      exists_writeThrough (h.joinOrder (h.bottom_ne_top hu hne)) hmemory hu u.targets
    exact ⟨memory', hmemory', hwritten.canonical⟩

/-- **Updates that spare each other can be exchanged.** -/
theorem update_swap (h : JoinLaws C) (hmemory : Pointwise.Canonical C memory) (hu₁ : C u₁.value)
    (hu₂ : C u₂.value) (hspares : u₁.Spares u₂) (hspares' : u₂.Spares u₁) :
    (do update (← memory.update u₁) u₂) = (do update (← memory.update u₂) u₁) := by
  simp only [update_eq_writeThrough]
  by_cases hbottom : (bottom : α) = top
  · -- there is nothing but bottom to write
    have hvalue : ∀ {a : α}, C a → isBottom a = true := fun ha =>
      h.eq_bottom_of_trivial hbottom ha ▸ h.isBottom_bottom
    simp only [writeThrough_of_isBottom (hvalue hu₁), writeThrough_of_isBottom (hvalue hu₂)]
  · have hR : JoinOrder C fun a b => join a b = .ok b := h.joinOrder hbottom
    obtain ⟨memory₁, h₁, hw₁⟩ := exists_writeThrough hR hmemory hu₁ u₁.targets
    obtain ⟨memory₂, h₂, hw₂⟩ := exists_writeThrough hR hmemory hu₂ u₂.targets
    obtain ⟨memory₁₂, h₁₂, hw₁₂⟩ := exists_writeThrough hR hw₁.canonical hu₂ u₂.targets
    obtain ⟨memory₂₁, h₂₁, hw₂₁⟩ := exists_writeThrough hR hw₂.canonical hu₁ u₁.targets
    have heq : memory₁₂ = memory₂₁ :=
      hw₁.eq_of_swapped hR.toOrderOn hw₁₂ hw₂ hw₂₁ hspares hspares'
    rw [h₁, h₂]
    show memory₁.writeThrough u₂.targets u₂.value = memory₂.writeThrough u₁.targets u₁.value
    rw [h₁₂, h₂₁, heq]

/-- Updates of memories with values in `C` commute: weak ones in any number and any order, and
writes to two sites with different keys. None of them fails. -/
structure UpdatesCommute (C : α → Prop) : Prop where
  weak : ∀ {memory : Memory α} {updates : List (Update α)}, Pointwise.Canonical C memory →
    (∀ u ∈ updates, u.isWeak = true ∧ C u.value) →
    ∃ memory', ∀ order : List (Update α), order.Perm updates →
      updateAll memory order = .ok memory'
  sites : ∀ {memory : Memory α} (site₁ site₂ : AllocationSite) (v₁ v₂ : α),
    Pointwise.Canonical C memory → C v₁ → C v₂ → site₁.key ≠ site₂.key →
    ∃ memory', (do write (← memory.write site₁ v₁) site₂ v₂) = .ok memory' ∧
      (do write (← memory.write site₂ v₂) site₁ v₁) = .ok memory'

/-- **Weak updates commute, and so do writes to different sites**, over any domain whose joins
commute and associate. -/
theorem updates_commute (h : JoinLaws C) : UpdatesCommute C where
  weak {memory updates} hmemory hupdates := by
    have hstep : ∀ u ∈ updates, ∀ memory : Memory α, Pointwise.Canonical C memory →
        ∃ memory', memory.update u = .ok memory' ∧ Pointwise.Canonical C memory' :=
      fun u hu _ hmemory => exists_update h hmemory (hupdates u hu).2
    have hswap : ∀ u ∈ updates, ∀ u' ∈ updates, ∀ memory : Memory α,
        Pointwise.Canonical C memory →
          (do update (← memory.update u) u') = (do update (← memory.update u') u) :=
      fun u hu u' hu' _ hmemory => update_swap h hmemory (hupdates u hu).2 (hupdates u' hu').2
        (u.spares_of_isWeak (hupdates u hu).1 u') (u'.spares_of_isWeak (hupdates u' hu').1 u)
    obtain ⟨memory', hmemory', -⟩ := Analysis.exists_foldlM hstep hmemory
    refine ⟨memory', fun order horder => ?_⟩
    unfold updateAll
    rw [← Analysis.foldlM_perm horder.symm hstep hswap hmemory, hmemory']
  sites {memory} site₁ site₂ v₁ v₂ hmemory hv₁ hv₂ hkey := by
    have hu₁ : C (Update.write site₁ v₁).value := hv₁
    have hu₂ : C (Update.write site₂ v₂).value := hv₂
    obtain ⟨memory₁, h₁, hcanonical⟩ := exists_update h hmemory hu₁
    obtain ⟨memory₁₂, h₁₂, -⟩ := exists_update h hcanonical hu₂
    have hfirst : (do write (← memory.write site₁ v₁) site₂ v₂) = .ok memory₁₂ := by
      rw [show memory.write site₁ v₁ = .ok memory₁ from h₁]
      exact h₁₂
    have hswap : (do write (← memory.write site₁ v₁) site₂ v₂) =
        (do write (← memory.write site₂ v₂) site₁ v₁) :=
      update_swap h hmemory hu₁ hu₂ (Update.spares_write hkey) (Update.spares_write hkey.symm)
    exact ⟨memory₁₂, hfirst, hswap.symm.trans hfirst⟩

/-- Joins of signs, of parities and of pairs of both commute and associate. What is known of a
loop's objects is lost whichever of the updates comes first; and zero is left in the one object that
is replaced, before or after zero may have gone to one of the loop's. -/
theorem updates_commute_of_numbers :
    UpdatesCommute (fun _ : Sign => True) ∧ UpdatesCommute (fun _ : Parity => True) ∧
    UpdatesCommute SignParity.Built ∧
    let one : SiteKey := ⟨"one", none⟩
    let loop : SiteKey := ⟨"loop", none⟩
    let memory : Memory Sign := .entries (.ofList [(one, .plus), (loop, .minus)])
    let first : Update Sign := .write ⟨loop, .weak⟩ .zero
    let second : Update Sign := .writeThrough (.ofSites [⟨one, .strong⟩, ⟨loop, .weak⟩]) .plus
    let third : Update Sign := .writeThrough .top .zero
    let left : Memory Sign := .entries (.ofList [(one, .zeroPlus)])
    let replaced : Memory Sign := .entries (.ofList [(one, .zero), (loop, .zeroMinus)])
    (memory.updateAll [first, second, third] = .ok left ∧
      memory.updateAll [third, first, second] = .ok left) ∧
    (do write (← memory.write ⟨one, .strong⟩ .zero) ⟨loop, .weak⟩ .zero) = .ok replaced ∧
      (do write (← memory.write ⟨loop, .weak⟩ .zero) ⟨one, .strong⟩ .zero) = .ok replaced := by
  have hsigns := updates_commute Sign.latticeOrder.joinOrder.joinLaws
  refine ⟨hsigns, updates_commute Parity.latticeOrder.joinOrder.joinLaws,
    updates_commute SignParity.domainOn.toLatticeOrder.joinOrder.joinLaws, ?_⟩
  intro one loop memory first second third left replaced
  have hcanonical : Pointwise.Canonical (fun _ => True) memory :=
    Pointwise.canonical_ofList (by decide)
  constructor
  · have hweak : ∀ u ∈ [first, second, third], u.isWeak = true ∧ True := by decide
    have horder : ([third] ++ [first, second]).Perm ([first, second] ++ [third]) :=
      List.perm_append_comm
    obtain ⟨memory', hall⟩ := hsigns.weak hcanonical hweak
    have hleft : memory.updateAll [first, second, third] = .ok left := by decide
    obtain rfl := Except.ok.inj (hleft.symm.trans (hall _ (.refl _)))
    exact ⟨hleft, hall _ horder⟩
  · have hkey : one ≠ loop := by decide
    have hfirst : (do write (← memory.write ⟨one, .strong⟩ .zero) ⟨loop, .weak⟩ .zero) =
        .ok replaced := by decide
    obtain ⟨memory', h₁, h₂⟩ := hsigns.sites ⟨one, .strong⟩ ⟨loop, .weak⟩ .zero .zero hcanonical
      trivial trivial hkey
    obtain rfl := Except.ok.inj (hfirst.symm.trans h₁)
    exact ⟨h₁, h₂⟩

end AbstractDomains.Memory
