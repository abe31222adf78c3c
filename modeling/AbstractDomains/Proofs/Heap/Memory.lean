import AbstractDomains.Heap.Memory
import AbstractDomains.Proofs.Heap.PointsTo

/-!
# Reads and writes through pointers

A write through a pointer replaces the contents of the pointer's only target, if it has one that is
strong, and otherwise adds to the contents of all its targets. So the cell that is written can hold
the new value, and every cell but the one whose contents were replaced can hold what it could
before.

Results:
* `Memory.allows_writeThrough_self`, `Memory.allows_writeThrough`: what cells can hold after a
  write.
* `Memory.gamma_readThrough`: what is read through a pointer covers the contents of its targets.
* `Memory.writeThrough_succeeds`, `Memory.readThrough_succeeds`: neither fails if no join does.
-/

namespace AbstractDomains.Memory

open Analysis (Succeeds succeeds_ok)

variable {α V : Type} [DecidableEq α] [AbstractLattice α] {γ : α → V → Prop}
  {memory memory' : Memory α} {targets : PointsTo} {cells cells' : FinMap SiteKey α}
  {key k : SiteKey} {v : α} {c : V}

/-! ## Adding to the contents of a cell -/

/-- Other cells stay as they are, and a cell that is known holds what it held and the new value. -/
theorem accumulate_inv (h : accumulate cells key v = .ok cells') :
    (cells.get? key = none ∧ cells' = cells) ∨
      ∃ old next, cells.get? key = some old ∧ join old v = .ok next ∧
        cells' = if isTop next then cells.erase key else cells.insert key next := by
  unfold accumulate at h
  cases hold : cells.get? key with
  | none =>
    rw [hold] at h
    exact .inl ⟨rfl, (Except.ok.inj h).symm⟩
  | some old =>
    rw [hold] at h
    obtain ⟨next, hnext, h⟩ := Analysis.bind_eq_ok.mp h
    exact .inr ⟨old, next, rfl, hnext, (Analysis.pure_eq_ok.mp h).symm⟩

theorem allows_accumulate (hγ : JoinSound γ) (h : accumulate cells key v = .ok cells')
    (hc : (Pointwise.entries cells).Allows γ k c) : (Pointwise.entries cells').Allows γ k c := by
  rcases accumulate_inv h with ⟨-, rfl⟩ | ⟨old, next, hold, hnext, rfl⟩
  · exact hc
  · intro a ha
    split at ha
    · rw [FinMap.get?_erase] at ha
      split at ha
      · cases ha
      · exact hc a ha
    · rw [FinMap.get?_insert] at ha
      split at ha
      · rename_i hk
        subst hk
        exact Option.some.inj ha ▸ hγ.of_join hnext (.inl (hc old hold))
      · exact hc a ha

theorem allows_accumulate_self (hγ : JoinSound γ) (h : accumulate cells key v = .ok cells')
    (hc : γ v c) : (Pointwise.entries cells').Allows γ key c := by
  rcases accumulate_inv h with ⟨hnone, rfl⟩ | ⟨old, next, -, hnext, rfl⟩
  · intro a ha
    rw [hnone] at ha
    exact nomatch ha
  · intro a ha
    split at ha
    · rw [FinMap.get?_erase, if_pos rfl] at ha
      exact nomatch ha
    · rw [FinMap.get?_insert, if_pos rfl] at ha
      exact Option.some.inj ha ▸ hγ.of_join hnext (.inr hc)

/-- Adding a value to several cells, one after the other. -/
theorem allows_accumulate_all (hγ : JoinSound γ) {keys : List SiteKey}
    (h : keys.foldlM (accumulate · · v) cells = .ok cells')
    (hc : (Pointwise.entries cells).Allows γ k c ∨ (k ∈ keys ∧ γ v c)) :
    (Pointwise.entries cells').Allows γ k c := by
  have hkeep : ∀ key ∈ keys, ∀ b b' : FinMap SiteKey α, (Pointwise.entries b).Allows γ k c →
      accumulate b key v = .ok b' → (Pointwise.entries b').Allows γ k c :=
    fun _ _ _ _ hb hstep => allows_accumulate hγ hstep hb
  rcases hc with hc | ⟨hmem, hc⟩
  · exact Analysis.foldlM_keeps hkeep hc h
  · have hself : ∀ b b' : FinMap SiteKey α, accumulate b k v = .ok b' →
        (Pointwise.entries b').Allows γ k c :=
      fun _ _ hstep => allows_accumulate_self hγ hstep hc
    exact Analysis.foldlM_reaches hkeep hmem hself h

theorem accumulate_succeeds (hjoin : ∀ a b : α, (join a b).Succeeds)
    (cells : FinMap SiteKey α) (key : SiteKey) (v : α) : (accumulate cells key v).Succeeds := by
  unfold accumulate
  split
  · exact succeeds_ok cells
  · exact (hjoin _ v).bind fun next => succeeds_ok _

/-! ## Writes -/

/-- The cells that a write through a pointer adds to. -/
def targetKeys (cells : FinMap SiteKey α) : PointsTo → List SiteKey
  | .top => cells.keys
  | .sites map => map.keys

/-- **A write through a pointer** that can refer to some cell, of a value that is not bottom. -/
theorem writeThrough_eq (hk : targets.contains key = true) (hv : isBottom v = false) :
    writeThrough (.entries cells) targets v =
      match targets.strongTarget? with
      | some target => .ok (Pointwise.set (.entries cells) target v)
      | none => do
        return .entries (← (targetKeys cells targets).foldlM (accumulate · · v) cells) := by
  unfold writeThrough
  rw [PointsTo.isBottom_of_contains hk, hv]
  cases targets <;> rfl

omit [DecidableEq α] [AbstractLattice α] in
/-- A cell that the pointer can refer to is added to, or else nothing is known of it. -/
theorem mem_targetKeys_or (hk : targets.contains key = true) :
    key ∈ targetKeys cells targets ∨ cells.get? key = none := by
  cases targets with
  | top =>
    cases hget : cells.get? key with
    | none => exact .inr rfl
    | some a => exact .inl (FinMap.mem_keys_iff.mpr (FinMap.contains_iff.mpr ⟨a, hget⟩))
  | sites map => exact .inl (FinMap.mem_keys_iff.mpr hk)

omit [DecidableEq α] [AbstractLattice α] in
theorem contains_of_mem_targetKeys (hk : key ∈ targetKeys cells targets) :
    targets.contains key = true := by
  cases targets with
  | top => rfl
  | sites map => exact FinMap.mem_keys_iff.mp hk

/-- **The written cell can hold the new value.** -/
theorem allows_writeThrough_self (hγ : JoinSound γ) (hm : memory ≠ .bottom)
    (h : memory.writeThrough targets v = .ok memory') (hk : targets.contains key = true)
    (hc : γ v c) : memory'.Allows γ key c := by
  cases memory with
  | bottom => exact absurd rfl hm
  | entries cells =>
    rw [writeThrough_eq hk (Bool.eq_false_iff.mpr fun hv => hγ.empty hv hc)] at h
    cases htarget : targets.strongTarget? with
    | some target =>
      rw [htarget] at h
      obtain rfl := Except.ok.inj h
      obtain rfl := PointsTo.eq_of_strongTarget? htarget hk
      exact Pointwise.allows_set_self hγ hm hc
    | none =>
      rw [htarget] at h
      obtain ⟨cells', hfold, h⟩ := Analysis.bind_eq_ok.mp h
      obtain rfl := Analysis.pure_eq_ok.mp h
      refine allows_accumulate_all hγ hfold ?_
      rcases mem_targetKeys_or hk with hmem | hnone
      · exact .inr ⟨hmem, hc⟩
      · refine .inl fun a ha => ?_
        rw [hnone] at ha
        exact nomatch ha

/-- **Every cell but a replaced one can hold what it could before.** -/
theorem allows_writeThrough (hγ : JoinSound γ) (h : memory.writeThrough targets v = .ok memory')
    (hk : targets.contains key = true) (hv : isBottom v = false)
    (hne : targets.strongTarget? ≠ some k) (hc : memory.Allows γ k c) : memory'.Allows γ k c := by
  cases memory with
  | bottom => exact hc.elim
  | entries cells =>
    rw [writeThrough_eq hk hv] at h
    cases htarget : targets.strongTarget? with
    | some target =>
      rw [htarget] at h hne
      obtain rfl := Except.ok.inj h
      have hk' : k ≠ target := fun heq => hne (congrArg some heq.symm)
      exact Pointwise.allows_set_of_ne hk' hv hc
    | none =>
      rw [htarget] at h
      obtain ⟨cells', hfold, h⟩ := Analysis.bind_eq_ok.mp h
      obtain rfl := Analysis.pure_eq_ok.mp h
      exact allows_accumulate_all hγ hfold (.inl hc)

/-- A write fails only if a join does. -/
theorem writeThrough_succeeds (hjoin : ∀ a b : α, (join a b).Succeeds) (memory : Memory α)
    (targets : PointsTo) (v : α) : (memory.writeThrough targets v).Succeeds := by
  unfold writeThrough
  split
  · exact succeeds_ok _
  · split
    · exact succeeds_ok _
    · split
      · exact succeeds_ok _
      · exact (Analysis.succeeds_foldlM (fun cells key _ => accumulate_succeeds hjoin cells key v)
          _).bind fun cells => succeeds_ok _

/-! ## Reads -/

/-- **What is read through a pointer covers the contents of its targets.** -/
theorem gamma_readThrough (hγ : JoinSound γ) {a : α} (h : memory.readThrough targets = .ok a)
    (hk : targets.contains key = true) (hc : memory.Allows γ key c) : γ a c := by
  cases memory with
  | bottom => exact hc.elim
  | entries cells =>
    cases targets with
    | top => exact Except.ok.inj h ▸ hγ.top c
    | sites map =>
      have hkeep : ∀ k ∈ map.keys, ∀ b b', γ b c →
          join b (Pointwise.read (.entries cells) k) = .ok b' → γ b' c :=
        fun _ _ _ _ hb hstep => hγ.of_join hstep (.inl hb)
      have hself : ∀ b b', join b (Pointwise.read (.entries cells) key) = .ok b' → γ b' c :=
        fun _ _ hstep => hγ.of_join hstep (.inr (Pointwise.gamma_read hγ hc))
      exact Analysis.foldlM_reaches hkeep (FinMap.mem_keys_iff.mpr hk) hself h

/-- A read fails only if a join does. -/
theorem readThrough_succeeds (hjoin : ∀ a b : α, (join a b).Succeeds) (memory : Memory α)
    (targets : PointsTo) : (memory.readThrough targets).Succeeds := by
  unfold readThrough
  split
  · exact succeeds_ok _
  · exact succeeds_ok _
  · exact Analysis.succeeds_foldlM (fun a key _ => hjoin a _) _

end AbstractDomains.Memory
