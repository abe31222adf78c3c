import AbstractDomains.Proofs.Heap.Reached
import AbstractDomains.Proofs.JoinLaws

/-!
# A write through a pointer is a join of strong writes

The cell a pointer refers to is one of its targets, but it is not known which one. So what a write
through the pointer leaves is what a write to one of them leaves, joined over all of them. If the
only target stands for several objects, the one that is read later may not be the one that was
written, and the old memory is joined as well.

Results:
* `PointsTo.isWeakAlone_iff`, `PointsTo.strongTarget?_ne_iff`: the old contents of a cell are kept
  if the pointer has another target, or a weak one alone.
* `Memory.readsBelow_set_iff`, `Memory.Written.readsBelow_iff`: what lies above a memory after a
  write.
* `Memory.writes_are_joins`: writes through pointers as joins, wherever joins obey their laws.
-/

namespace AbstractDomains

namespace PointsTo

variable {p : PointsTo} {map : FinMap SiteKey Strength} {key : SiteKey}

/-- Whether there is just one site, and that one stands for several objects. -/
def isWeakAlone (p : PointsTo) : Bool :=
  p.toList.map AllocationSite.strength = [.weak]

theorem isWeakAlone_iff : p.isWeakAlone = true ↔ ∃ key, p = single ⟨key, .weak⟩ := by
  unfold isWeakAlone
  rw [decide_eq_true_iff]
  constructor
  · intro h
    cases p with
    | top => cases h
    | sites map =>
      simp only [toList, List.map_map, List.map_eq_singleton_iff] at h
      obtain ⟨⟨key, strength⟩, hentries, hstrength⟩ := h
      obtain rfl : strength = .weak := hstrength
      exact ⟨key, congrArg sites (FinMap.ext hentries)⟩
  · rintro ⟨key, rfl⟩
    rfl

/-- A set with one key has one site. -/
theorem eq_single_of_key (hp : sites map ≠ .bottom)
    (honly : ∀ k, (sites map).contains k = true → k = key) :
    sites map = single ⟨key, .strong⟩ ∨ sites map = single ⟨key, .weak⟩ := by
  obtain ⟨k, hk⟩ := exists_contains hp
  obtain rfl := honly k hk
  obtain ⟨strength, hs⟩ := FinMap.contains_iff.mp hk
  have hsingle : sites map = single ⟨k, strength⟩ := by
    refine eq_of_level fun k' => ?_
    rw [level_single]
    by_cases hk' : k' = k
    · rw [hk', if_pos rfl, level_sites, hs]
    · have hnone : ¬ (sites map).contains k' = true := fun h => hk' (honly k' h)
      rw [contains_iff_level, Nat.not_lt, Nat.le_zero] at hnone
      rw [if_neg hk', hnone]
      rfl
  cases strength with
  | strong => exact .inl hsingle
  | weak => exact .inr hsingle

/-- **The contents of a cell may be kept** if it is not the only target, or a weak one. -/
theorem strongTarget?_ne_iff (hp : sites map ≠ .bottom) :
    (sites map).strongTarget? ≠ some key ↔
      (∃ k, (sites map).contains k = true ∧ k ≠ key) ∨ (sites map).isWeakAlone = true := by
  constructor
  · intro h
    by_contra hnone
    rw [not_or, not_exists] at hnone
    obtain ⟨hkeys, hweak⟩ := hnone
    have honly : ∀ k, (sites map).contains k = true → k = key := fun k hk =>
      by_contra fun hne => hkeys k ⟨hk, hne⟩
    rcases eq_single_of_key hp honly with hsingle | hsingle
    · exact h (strongTarget?_eq_some_iff.mpr hsingle)
    · exact hweak (isWeakAlone_iff.mpr ⟨key, hsingle⟩)
  · intro h htarget
    rw [strongTarget?_eq_some_iff] at htarget
    rw [htarget] at h
    rcases h with ⟨k, hk, hne⟩ | hweak
    · exact hne (contains_single_iff.mp hk)
    · cases hweak

end PointsTo

namespace Memory

variable {α : Type} [DecidableEq α] [AbstractLattice α] {C P : α → Prop} {R : α → α → Prop}
  {memory memory' d : Memory α} {targets : PointsTo} {map : FinMap SiteKey Strength}
  {keys : List SiteKey} {key : SiteKey} {v : α}

/-! ## Strong writes -/

/-- The memories after a write to a strong site of one of the keys. -/
def strongWrites (memory : Memory α) (keys : List SiteKey) (v : α) : Analysis (List (Memory α)) :=
  keys.mapM fun key => memory.write ⟨key, .strong⟩ v

theorem write_strong (memory : Memory α) (key : SiteKey) (v : α) :
    memory.write ⟨key, .strong⟩ v = .ok (memory.set key v) := by
  cases memory <;> rfl

theorem strongWrites_eq (memory : Memory α) (keys : List SiteKey) (v : α) :
    memory.strongWrites keys v = .ok (keys.map fun key => memory.set key v) := by
  unfold strongWrites
  simp only [write_strong]
  exact List.mapM_pure

/-! ## What lies above -/

/-- A memory is above what a write leaves if its cells are. -/
theorem Written.readsBelow_iff (hR : OrderOn P R) (h : Written P R memory targets v memory')
    (hne : memory' ≠ .bottom) (hd : Pointwise.Canonical P d) :
    Pointwise.ReadsBelow R memory' d ↔ d ≠ .bottom ∧ ∀ k,
      (targets.strongTarget? ≠ some k → R (memory.read k) (d.read k)) ∧
        (targets.contains k = true → R v (d.read k)) :=
  (or_iff_right hne).trans (and_congr_right fun _ => forall_congr' fun k =>
    h.read_below_iff hne k (hd.read_mem hR k))

theorem readsBelow_set_iff (hR : OrderOn P R) (hmemory : Pointwise.Canonical P memory)
    (hne : memory ≠ .bottom) (hv : P v) (hvne : v ≠ bottom) (hd : Pointwise.Canonical P d) :
    Pointwise.ReadsBelow R (memory.set key v) d ↔ d ≠ .bottom ∧ ∀ k,
      (k ≠ key → R (memory.read k) (d.read k)) ∧ (k = key → R v (d.read k)) := by
  have htarget : (PointsTo.single ⟨key, .strong⟩).strongTarget? = some key := rfl
  have hb : isBottom v = false := hR.isBottom_eq_false hv hvne
  have hset : memory.set key v ≠ .bottom := by simp [Pointwise.set_eq_bottom_iff, hne, hb]
  cases memory with
  | bottom => exact absurd rfl hne
  | entries cells =>
    rw [(written_set hR hmemory hv hvne htarget).readsBelow_iff hR hset hd, htarget]
    simp only [PointsTo.contains_single_iff, ne_eq, Option.some.injEq, eq_comm (a := key)]

/-- What is above a write through a pointer is above the strong writes to all of its targets, and
above the old memory if there is only a weak one. -/
theorem Written.readsBelow_iff_joined (hR : OrderOn P R)
    (h : Written P R memory (.sites map) v memory') (hmemory : Pointwise.Canonical P memory)
    (hne : memory ≠ .bottom) (hv : P v) (hvne : v ≠ bottom) (hmap : PointsTo.sites map ≠ .bottom)
    (hkeys : ∀ key, key ∈ keys ↔ (PointsTo.sites map).contains key = true)
    (hd : Pointwise.Canonical P d) :
    Pointwise.ReadsBelow R memory' d ↔
      (∀ key ∈ keys, Pointwise.ReadsBelow R (memory.set key v) d) ∧
        ((PointsTo.sites map).isWeakAlone = true → Pointwise.ReadsBelow R memory d) := by
  have hne' : memory' ≠ .bottom := by simp [h.eq_bottom_iff, hne, hvne, hmap]
  obtain ⟨first, hfirst⟩ := PointsTo.exists_contains hmap
  rw [← hkeys] at hfirst
  rw [h.readsBelow_iff hR hne' hd]
  simp only [readsBelow_set_iff hR hmemory hne hv hvne hd, PointsTo.strongTarget?_ne_iff hmap,
    ← hkeys]
  constructor
  · rintro ⟨hdne, hreads⟩
    refine ⟨fun key hkey => ⟨hdne, fun k => ⟨fun hk => ?_, fun hk => ?_⟩⟩, fun hweak => ?_⟩
    · exact (hreads k).1 (.inl ⟨key, hkey, Ne.symm hk⟩)
    · exact (hreads k).2 (hk ▸ hkey)
    · exact .inr ⟨hdne, fun k => (hreads k).1 (.inr hweak)⟩
  · rintro ⟨hwrites, hold⟩
    refine ⟨(hwrites first hfirst).1, fun k => ⟨fun hkept => ?_, fun hk => ?_⟩⟩
    · -- the old contents are still there after a write to another target
      rcases hkept with ⟨key, hkey, hk⟩ | hweak
      · exact ((hwrites key hkey).2 k).1 (Ne.symm hk)
      · exact ((hold hweak).resolve_left hne).2 k
    · exact ((hwrites k hk).2 k).2 rfl

/-! ## Joins of writes -/

/-- Writes of values in `C` through pointers are joins. One through a pointer with listed targets is
the join of strong writes to these, in any order, and of the old memory if there is only a weak
target. One through a pointer that may refer to any cell joins the new value to the contents of each
cell. A write to a site is one through a pointer to that site alone. -/
structure WritesAreJoins (C : α → Prop) : Prop where
  targets : ∀ {memory : Memory α} {map : FinMap SiteKey Strength} {keys : List SiteKey} {v : α},
    Pointwise.Canonical C memory → memory ≠ .bottom → C v → v ≠ bottom →
    PointsTo.sites map ≠ .bottom → (∀ key, key ∈ keys ↔ (PointsTo.sites map).contains key = true) →
    ∃ memory' written, memory.writeThrough (.sites map) v = .ok memory' ∧
      memory.strongWrites keys v = .ok written ∧
      joinAll (written ++ if (PointsTo.sites map).isWeakAlone then [memory] else []) = .ok memory'
  anywhere : ∀ {memory : Memory α} {v : α}, Pointwise.Canonical C memory → memory ≠ .bottom →
    C v → v ≠ bottom → ∃ memory', memory.writeThrough .top v = .ok memory' ∧
      ∀ key, join (memory.read key) v = .ok (memory'.read key)
  site : ∀ (memory : Memory α) (site : AllocationSite) (v : α),
    memory.write site v = memory.writeThrough (.single site) v

omit [DecidableEq α] [AbstractLattice α] in
theorem forall_mem_joined {Q : Memory α → Prop} {f : SiteKey → Memory α} {weak : Bool} :
    (∀ a ∈ keys.map f ++ (if weak then [memory] else []), Q a) ↔
      (∀ key ∈ keys, Q (f key)) ∧ (weak = true → Q memory) := by
  rw [List.forall_mem_append, List.forall_mem_map]
  cases weak <;> simp

theorem exists_joinAll_writes (hR : JoinOrder P R) (hmemory : Pointwise.Canonical P memory)
    (hne : memory ≠ .bottom) (hv : P v) (hvne : v ≠ bottom) (hmap : PointsTo.sites map ≠ .bottom)
    (hkeys : ∀ key, key ∈ keys ↔ (PointsTo.sites map).contains key = true) :
    ∃ memory' written, memory.writeThrough (.sites map) v = .ok memory' ∧
      memory.strongWrites keys v = .ok written ∧
      joinAll (written ++ if (PointsTo.sites map).isWeakAlone then [memory] else []) =
        .ok memory' := by
  have hjoins : JoinOrder (Pointwise.Canonical P : Memory α → Prop) (Pointwise.ReadsBelow R) :=
    Pointwise.joinOrder hR
  obtain ⟨memory', hmemory', hwritten⟩ := exists_writeThrough hR hmemory hv (.sites map)
  have hcanonical : ∀ a ∈ keys.map (memory.set · v) ++
      (if (PointsTo.sites map).isWeakAlone then [memory] else []), Pointwise.Canonical P a := by
    rw [forall_mem_joined]
    exact ⟨fun _ _ => hmemory.set hR.toOrderOn hv, fun _ => hmemory⟩
  obtain ⟨joined, hjoined, hmem, hbelow⟩ := hjoins.exists_joinAll hcanonical
  have heq : joined = memory' := hjoins.eq_of_below_iff hmem hwritten.canonical fun {d} hd => by
    rw [hbelow hd, forall_mem_joined,
      hwritten.readsBelow_iff_joined hR.toOrderOn hmemory hne hv hvne hmap hkeys hd]
  exact ⟨memory', _, hmemory', strongWrites_eq memory keys v, heq ▸ hjoined⟩

theorem exists_join_reads (hR : JoinOrder P R) (hmemory : Pointwise.Canonical P memory)
    (hne : memory ≠ .bottom) (hv : P v) (hvne : v ≠ bottom) :
    ∃ memory', memory.writeThrough .top v = .ok memory' ∧
      ∀ key, join (memory.read key) v = .ok (memory'.read key) := by
  obtain ⟨memory', hmemory', hwritten⟩ := exists_writeThrough hR hmemory hv .top
  have htop : PointsTo.top ≠ .bottom := PointsTo.orderOn.bottom_ne_top.symm
  have hne' : memory' ≠ .bottom := by simp [hwritten.eq_bottom_iff, hne, hvne, htop]
  refine ⟨memory', hmemory', fun key => ?_⟩
  have hold : P (memory.read key) := hmemory.read_mem hR.toOrderOn key
  have hnew : P (memory'.read key) := hwritten.canonical.read_mem hR.toOrderOn key
  obtain ⟨next, hnext, hjoin⟩ := hR.exists_join hold hv
  have heq : next = memory'.read key := hR.eq_of_below_iff hjoin.mem hnew fun {d} hd => by
    rw [hjoin.below_iff hR.toOrderOn hold hv hd, hwritten.read_below_iff hne' key hd]
    simp [PointsTo.strongTarget?, PointsTo.contains]
  rw [hnext, heq]

/-- **A write through a pointer is a join of strong writes**, over any domain whose joins commute
and associate. -/
theorem writes_are_joins (h : JoinLaws C) : WritesAreJoins C where
  targets hmemory hne hv hvne hmap hkeys :=
    exists_joinAll_writes (h.joinOrder (h.bottom_ne_top hv hvne)) hmemory hne hv hvne hmap hkeys
  anywhere hmemory hne hv hvne :=
    exists_join_reads (h.joinOrder (h.bottom_ne_top hv hvne)) hmemory hne hv hvne
  site := write_eq_writeThrough

/-- Joins of signs, of parities and of pairs of both commute and associate. Zero that is written to
a single object or to one of a loop's leaves what the two writes leave, joined; if it can only go to
one of the loop's, the objects may hold what they held. -/
theorem writes_are_joins_of_numbers :
    WritesAreJoins (fun _ : Sign => True) ∧ WritesAreJoins (fun _ : Parity => True) ∧
    WritesAreJoins SignParity.Built ∧
    let one : SiteKey := ⟨"one", none⟩
    let loop : SiteKey := ⟨"loop", none⟩
    let objects (a b : Sign) : Memory Sign := .entries (.ofList [(one, a), (loop, b)])
    let both : FinMap SiteKey Strength := .ofList [(one, .strong), (loop, .weak)]
    let weak : FinMap SiteKey Strength := .ofList [(loop, .weak)]
    ((objects .plus .minus).writeThrough (.sites both) .zero = .ok (objects .zeroPlus .zeroMinus) ∧
      joinAll [objects .plus .zero, objects .zero .minus] = .ok (objects .zeroPlus .zeroMinus)) ∧
    (objects .plus .minus).writeThrough (.sites weak) .zero = .ok (objects .plus .zeroMinus) ∧
      joinAll [objects .plus .zero, objects .plus .minus] = .ok (objects .plus .zeroMinus) := by
  have hsigns := writes_are_joins Sign.latticeOrder.joinOrder.joinLaws
  refine ⟨hsigns, writes_are_joins Parity.latticeOrder.joinOrder.joinLaws,
    writes_are_joins SignParity.domainOn.toLatticeOrder.joinOrder.joinLaws, ?_⟩
  intro one loop objects both weak
  have hcanonical : Pointwise.Canonical (fun _ => True) (objects .plus .minus) :=
    Pointwise.canonical_ofList (by decide)
  have hne : objects .plus .minus ≠ .bottom := Pointwise.entries_ne_bottom _
  have hzero : Sign.zero ≠ bottom := by decide
  constructor
  · have hwrite : (objects .plus .minus).writeThrough (.sites both) .zero =
        .ok (objects .zeroPlus .zeroMinus) := by decide
    have hstrong : (objects .plus .minus).strongWrites both.keys .zero =
        .ok [objects .plus .zero, objects .zero .minus] := by decide
    have hboth : PointsTo.sites both ≠ .bottom := by decide
    have halone : (PointsTo.sites both).isWeakAlone = false := by decide
    obtain ⟨memory, written, hmemory, hwritten, hjoin⟩ :=
      hsigns.targets hcanonical hne trivial hzero hboth fun _ => FinMap.mem_keys_iff
    obtain rfl := Except.ok.inj (hwrite.symm.trans hmemory)
    obtain rfl := Except.ok.inj (hstrong.symm.trans hwritten)
    rw [halone] at hjoin
    exact ⟨hwrite, hjoin⟩
  · have hwrite : (objects .plus .minus).writeThrough (.sites weak) .zero =
        .ok (objects .plus .zeroMinus) := by decide
    have hstrong : (objects .plus .minus).strongWrites weak.keys .zero =
        .ok [objects .plus .zero] := by decide
    have hweak : PointsTo.sites weak ≠ .bottom := by decide
    have halone : (PointsTo.sites weak).isWeakAlone = true := by decide
    obtain ⟨memory, written, hmemory, hwritten, hjoin⟩ :=
      hsigns.targets hcanonical hne trivial hzero hweak fun _ => FinMap.mem_keys_iff
    obtain rfl := Except.ok.inj (hwrite.symm.trans hmemory)
    obtain rfl := Except.ok.inj (hstrong.symm.trans hwritten)
    rw [halone] at hjoin
    exact ⟨hwrite, hjoin⟩

end Memory

end AbstractDomains
