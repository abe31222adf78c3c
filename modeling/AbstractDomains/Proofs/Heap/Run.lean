import Mathlib.Logic.Relation
import AbstractDomains.Proofs.Heap.Memory
import AbstractDomains.Proofs.Heap.Objects
import AbstractDomains.Proofs.Numeric.Parities

/-!
# The heap of a running program

A program allocates objects, lets pointers refer to their cells and writes through pointers, and the
analysis follows with a table of sites, a points-to set for each pointer and a memory. Objects that
one location allocates share the site of that location. What makes it right to replace the contents
of a strong site is that its location has allocated a single object, which no write may forget when
a location is reached again: before each write the points-to set is refreshed.

`HeapState` is the program's heap beside that of the analysis, and `HeapStep` one step of both.

Results:
* `HeapState.Sound`: the invariant, with `HeapStep.sound` for one step.
* `heap_run_sound`: in every run, the memory covers what the program has written.
-/

namespace AbstractDomains

variable {O P V α : Type}

/-- The heap of a program, and what the analysis knows of it. -/
structure HeapState (O P V α : Type) where
  /-- The location that allocated an object. -/
  origin : O → Option Location
  /-- The value last written to a cell. -/
  contents : Cell O → Option V
  /-- The cell a pointer refers to, and the sites the analysis gave the pointer. -/
  pointers : P → Option (Cell O × PointsTo)
  table : SiteTable
  memory : Memory α

namespace HeapState

/-- The key that stands for a cell, once its object is allocated. -/
def key? (s : HeapState O P V α) (cell : Cell O) : Option SiteKey :=
  (s.origin cell.object).map (⟨·, cell.field⟩)

variable [DecidableEq α] [AbstractLattice α]

/-- Before anything is allocated. -/
def initial : HeapState O P V α where
  origin _ := none
  contents _ := none
  pointers _ := none
  table := .empty
  memory := top

end HeapState

section Step

variable [DecidableEq O] [DecidableEq P] [DecidableEq α] [AbstractLattice α]

/-- **One step of the program**, followed by the analysis. A pointer is given any set that contains
the site that the table issues for its cell: the site alone (`PointsTo.contains_single`), joined
with others (`PointsTo.contains_join_iff`), or any site. -/
inductive HeapStep (γ : α → V → Prop) : HeapState O P V α → HeapState O P V α → Prop
  | allocate {s table site} (o : O) (l : Location) (f : Option Expr) : s.origin o = none →
      s.table.allocate l f = .ok (table, site) →
      HeapStep γ s { s with origin := Function.update s.origin o (some l), table }
  | point {s table site} (p : P) (cell : Cell O) (l : Location) (set : PointsTo) :
      s.origin cell.object = some l → s.table.resolve l cell.field = (table, site) →
      set.contains site.key = true →
      HeapStep γ s { s with pointers := Function.update s.pointers p (some (cell, set)), table }
  | write {s cell set memory} (p : P) (v : α) (c : V) : s.pointers p = some (cell, set) → γ v c →
      s.memory.writeThrough (set.refresh s.table) v = .ok memory →
      HeapStep γ s { s with contents := Function.update s.contents cell (some c), memory }

end Step

/-! ## The invariant -/

variable {γ : α → V → Prop} {s s' : HeapState O P V α}

/-- **What holds throughout a run.** A strong location has allocated a single object, pointers may
refer to their cells, and the memory covers what has been written. -/
structure HeapState.Sound (γ : α → V → Prop) (s : HeapState O P V α) : Prop where
  seen : ∀ {o l}, s.origin o = some l → ∃ strength, s.table.strength? l = some strength
  single : ∀ {o o' l}, s.table.strength? l = some .strong → s.origin o = some l →
    s.origin o' = some l → o = o'
  points : ∀ {p cell set}, s.pointers p = some (cell, set) →
    ∃ key, s.key? cell = some key ∧ set.contains key = true
  covered : ∀ {cell c}, s.contents cell = some c →
    ∃ key, s.key? cell = some key ∧ s.memory.Allows γ key c
  possible : s.memory ≠ .bottom

theorem HeapState.key?_eq_some {cell : Cell O} {key : SiteKey} :
    s.key? cell = some key ↔ s.origin cell.object = some key.location ∧ key.field = cell.field := by
  unfold key?
  rw [Option.map_eq_some_iff]
  constructor
  · rintro ⟨l, hl, rfl⟩
    exact ⟨hl, rfl⟩
  · rintro ⟨hl, hf⟩
    exact ⟨key.location, hl, by rw [← hf]⟩

/-! ## Steps keep the invariant -/

section Steps

variable {table : SiteTable} {site : AllocationSite} {l : Location}

theorem HeapState.Sound.allocate [DecidableEq O] (h : s.Sound γ) {o : O} {f : Option Expr}
    (ho : s.origin o = none) (halloc : s.table.allocate l f = .ok (table, site)) :
    HeapState.Sound γ { s with origin := Function.update s.origin o (some l), table } := by
  obtain ⟨hseen, hsingle⟩ := SingleObjects.allocate (o := o) ⟨h.seen, h.single⟩ halloc
  have hkey : ∀ {cell : Cell O} {key}, s.key? cell = some key → HeapState.key?
      { s with origin := Function.update s.origin o (some l), table } cell = some key := by
    intro cell key hk
    rw [HeapState.key?_eq_some] at hk ⊢
    exact ⟨origin_update ho hk.1, hk.2⟩
  refine ⟨hseen, hsingle, ?_, ?_, h.possible⟩
  · intro p cell set hp
    obtain ⟨key, hk, hset⟩ := h.points hp
    exact ⟨key, hkey hk, hset⟩
  · intro cell c hc
    obtain ⟨key, hk, hallows⟩ := h.covered hc
    exact ⟨key, hkey hk, hallows⟩

theorem HeapState.Sound.point [DecidableEq P] (h : s.Sound γ) {p : P} {cell : Cell O}
    {set : PointsTo} (hl : s.origin cell.object = some l)
    (hsite : s.table.resolve l cell.field = (table, site)) (hset : set.contains site.key = true) :
    HeapState.Sound γ
      { s with pointers := Function.update s.pointers p (some (cell, set)), table } := by
  obtain ⟨strength, hs⟩ := h.seen hl
  rw [SiteTable.resolve_of_seen hs] at hsite
  obtain ⟨rfl, rfl⟩ := Prod.mk.inj hsite
  refine ⟨h.seen, h.single, ?_, h.covered, h.possible⟩
  intro p' cell' set' hp'
  rcases update_eq_some hp' with ⟨-, hpair⟩ | ⟨-, hp'⟩
  · obtain ⟨rfl, rfl⟩ := Prod.mk.inj hpair
    exact ⟨⟨l, cell.field⟩, HeapState.key?_eq_some.mpr ⟨hl, rfl⟩, hset⟩
  · exact h.points hp'

/-- A write replaces the contents of no cell but the one it is to. -/
theorem HeapState.Sound.eq_of_strongTarget? (h : s.Sound γ) {cell cell' : Cell O} {set : PointsTo}
    {key : SiteKey} (hk : s.key? cell = some key) (hset : set.contains key = true)
    (hk' : s.key? cell' = some key)
    (ht : (set.refresh s.table).strongTarget? = some key) : cell' = cell := by
  rw [HeapState.key?_eq_some] at hk hk'
  exact SingleObjects.eq_of_strongTarget? ⟨h.seen, h.single⟩ hset ht hk' hk

variable [DecidableEq α] [AbstractLattice α]

theorem HeapState.initial_sound : (initial : HeapState O P V α).Sound γ where
  seen := nofun
  single := nofun
  points := nofun
  covered := nofun
  possible := nofun

theorem HeapState.Sound.write [DecidableEq O] (hγ : JoinSound γ) (h : s.Sound γ) {p : P}
    {cell : Cell O} {set : PointsTo} {v : α} {c : V} {memory : Memory α}
    (hp : s.pointers p = some (cell, set)) (hc : γ v c)
    (hwrite : s.memory.writeThrough (set.refresh s.table) v = .ok memory) :
    HeapState.Sound γ
      { s with contents := Function.update s.contents cell (some c), memory } := by
  obtain ⟨key, hk, hset⟩ := h.points hp
  have hset' : (set.refresh s.table).contains key = true := PointsTo.contains_refresh.trans hset
  have hself : memory.Allows γ key c :=
    Memory.allows_writeThrough_self hγ h.possible hwrite hset' hc
  refine ⟨h.seen, h.single, h.points, ?_, hself.ne_bottom⟩
  intro cell' c' hc'
  rcases update_eq_some hc' with ⟨rfl, rfl⟩ | ⟨hcell, hc'⟩
  · exact ⟨key, hk, hself⟩
  · obtain ⟨key', hk', hallows⟩ := h.covered hc'
    have hv : isBottom v = false := Bool.eq_false_iff.mpr fun hv => hγ.empty hv hc
    refine ⟨key', hk', Memory.allows_writeThrough hγ hwrite hset' hv ?_ hallows⟩
    intro ht
    obtain rfl := PointsTo.eq_of_strongTarget? ht hset'
    exact hcell (h.eq_of_strongTarget? hk hset hk' ht)

end Steps

variable [DecidableEq O] [DecidableEq P] [DecidableEq α] [AbstractLattice α]

/-- **One step keeps the invariant.** -/
theorem HeapStep.sound (hγ : JoinSound γ) (h : s.Sound γ) (hstep : HeapStep γ s s') :
    s'.Sound γ := by
  cases hstep with
  | allocate o l f ho halloc => exact h.allocate ho halloc
  | point p cell l set hl hsite hset => exact h.point hl hsite hset
  | write p v c hp hc hwrite => exact h.write hγ hp hc hwrite

/-- **Memories cover the heap.** In every run, the memory has not become bottom, and every written
cell holds a value that the memory says its key can hold. What is read through a refreshed pointer
covers the value of its cell. A run can always go on: allocations never fail, and reads and writes
fail only if a join does. -/
theorem heap_run_sound (hγ : JoinSound γ)
    (hrun : Relation.ReflTransGen (HeapStep γ) (.initial : HeapState O P V α) s) :
    s.memory ≠ .bottom ∧
      (∀ cell c, s.contents cell = some c →
        ∃ key, s.key? cell = some key ∧ γ (s.memory.read key) c) ∧
      (∀ p cell set c, s.pointers p = some (cell, set) → s.contents cell = some c →
        ∀ a, s.memory.readThrough (set.refresh s.table) = .ok a → γ a c) ∧
      (∀ l f, (s.table.allocate l f).Succeeds) ∧
      ((∀ a b : α, (join a b).Succeeds) → ∀ targets,
        (s.memory.readThrough targets).Succeeds ∧
          ∀ v, (s.memory.writeThrough targets v).Succeeds) := by
  have hs : s.Sound γ := by
    induction hrun with
    | refl => exact HeapState.initial_sound
    | tail _ hstep ih => exact hstep.sound hγ ih
  refine ⟨hs.possible, fun cell c hc => ?_, fun p cell set c hp hc a ha => ?_, fun l f => ?_,
    fun hjoin targets => ⟨?_, fun v => ?_⟩⟩
  · obtain ⟨key, hk, hallows⟩ := hs.covered hc
    exact ⟨key, hk, Pointwise.gamma_read hγ hallows⟩
  · obtain ⟨key, hk, hset⟩ := hs.points hp
    obtain ⟨key', hk', hallows⟩ := hs.covered hc
    obtain rfl := Option.some.inj (hk.symm.trans hk')
    exact Memory.gamma_readThrough hγ ha (PointsTo.contains_refresh.trans hset) hallows
  · exact s.table.allocate_succeeds l f
  · exact s.memory.readThrough_succeeds hjoin targets
  · exact s.memory.writeThrough_succeeds hjoin targets v

/-- A loop that allocates two objects. The first one is written again, through a pointer that was
given a strong site, after the second one. -/
theorem heap_run_sound_list :
    let γ : Parity → Value Int → Prop := Parity.Contains isOddInt
    ∃ s : HeapState Nat Nat (Value Int) Parity, Relation.ReflTransGen (HeapStep γ) .initial s ∧
      s.key? ⟨0, none⟩ = some ⟨"loop", none⟩ ∧ s.contents ⟨0, none⟩ = some (.number 7) ∧
      s.key? ⟨1, none⟩ = some ⟨"loop", none⟩ ∧ s.contents ⟨1, none⟩ = some (.number 5) ∧
      s.memory.read ⟨"loop", none⟩ = .odd ∧ γ (s.memory.read ⟨"loop", none⟩) (.number 5) := by
  intro γ
  have h₃ : γ .odd (.number 3) := rfl
  have h₅ : γ .odd (.number 5) := rfl
  have h₇ : γ .odd (.number 7) := rfl
  obtain ⟨s, hrun, hk₀, h₀, hk₁, h₁, hread⟩ : ∃ s : HeapState Nat Nat (Value Int) Parity,
      Relation.ReflTransGen (HeapStep γ) .initial s ∧
      s.key? ⟨0, none⟩ = some ⟨"loop", none⟩ ∧ s.contents ⟨0, none⟩ = some (.number 7) ∧
      s.key? ⟨1, none⟩ = some ⟨"loop", none⟩ ∧ s.contents ⟨1, none⟩ = some (.number 5) ∧
      s.memory.read ⟨"loop", none⟩ = .odd := by
    refine ⟨?_, .head (.allocate 0 "loop" none rfl rfl) ?_, ?_⟩
    rotate_left
    refine .head (.point 0 ⟨0, none⟩ "loop" (.single ⟨⟨"loop", none⟩, .strong⟩) rfl rfl
      PointsTo.contains_single) ?_
    refine .head (.write 0 Parity.odd (.number 3) rfl h₃ rfl) ?_
    refine .head (.allocate 1 "loop" none rfl rfl) ?_
    refine .head (.point 1 ⟨1, none⟩ "loop" (.single ⟨⟨"loop", none⟩, .weak⟩) rfl rfl
      PointsTo.contains_single) ?_
    refine .head (.write 1 Parity.odd (.number 5) rfl h₅ rfl) ?_
    refine .head (.write 0 Parity.odd (.number 7) rfl h₇ rfl) ?_
    · exact .refl
    exact ⟨rfl, rfl, rfl, rfl, rfl⟩
  obtain ⟨-, hcovered, -⟩ := heap_run_sound Parity.latticeSound.toJoinSound hrun
  obtain ⟨k, hk, hγ⟩ := hcovered ⟨1, none⟩ (.number 5) h₁
  obtain rfl := Option.some.inj (hk₁.symm.trans hk)
  exact ⟨s, hrun, hk₀, h₀, hk₁, h₁, hread, hγ⟩

end AbstractDomains
