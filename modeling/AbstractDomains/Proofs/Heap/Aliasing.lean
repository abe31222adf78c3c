import Mathlib.Logic.Relation
import AbstractDomains.Proofs.Heap.Objects
import AbstractDomains.Proofs.Heap.PointsToLattice
import AbstractDomains.Proofs.Heap.Strengths

/-!
# Aliases in a running program

Two pointers are compared by their points-to sets alone. That they may refer to the same cell is
answered by the keys that both sets contain. That they must is harder, since one key stands for the
cells of all objects that its location allocated. It is right only of sets that have been refreshed:
a key that is strong in the table then has a single object, whatever strength it had when the set
was made. Both answers are the more cautious the larger the sets are.

Results:
* `PointsTo.mayAlias_iff`, `PointsTo.mustAlias_iff`: the answers in terms of keys.
* `PointsTo.aliasing_agrees_with_order`: the answers in terms of the meet, and of larger sets.
* `PointerState.Sound`: the invariant, with `PointerStep.sound` for one step.
* `alias_answers_right`: in every run, both answers are right about all pointers.
-/

namespace AbstractDomains

/-! ## Answers -/

namespace PointsTo

variable {p q : PointsTo}

theorem exists_contains_iff {map : FinMap SiteKey Strength} :
    (∃ key, map.contains key = true) ↔ (!map.isEmpty) = true := by
  simp only [← FinMap.mem_keys_iff]
  unfold FinMap.keys FinMap.isEmpty
  cases map.entries <;> simp

/-- **Two sets may alias iff they have a key in common.** -/
theorem mayAlias_iff :
    p.mayAlias q = true ↔ ∃ key, p.contains key = true ∧ q.contains key = true := by
  cases p with
  | top =>
    cases q with
    | top => exact iff_of_true rfl ⟨⟨"", none⟩, rfl, rfl⟩
    | sites n => simp [mayAlias, contains, exists_contains_iff]
  | sites m =>
    cases q with
    | top => simp [mayAlias, contains, exists_contains_iff]
    | sites n => simp [mayAlias, contains, FinMap.mem_keys_iff]

/-- **Two sets must alias iff they have the same strong target.** -/
theorem mustAlias_iff : p.mustAlias q = true ↔
    ∃ key, p.strongTarget? = some key ∧ q.strongTarget? = some key := by
  unfold mustAlias
  cases p.strongTarget? <;> cases q.strongTarget? <;> simp [eq_comm]

/-! ## Answers and the order -/

variable {p' q' : PointsTo}

/-- The meet has the common keys, so it is empty iff there are none. -/
theorem mayAlias_iff_meet {r : PointsTo} (hr : meet p q = .ok r) :
    p.mayAlias q = true ↔ isBottom r = false := by
  rw [mayAlias_iff]
  constructor
  · rintro ⟨key, hp, hq⟩
    exact isBottom_of_contains ((contains_meet_iff hr).mpr ⟨hp, hq⟩)
  · intro hne
    have hr' : r ≠ .bottom := fun h => absurd (isBottom_iff.mpr h) (by simp [hne])
    obtain ⟨key, hkey⟩ := exists_contains hr'
    exact ⟨key, (contains_meet_iff hr).mp hkey⟩

/-- The common target is a common key. -/
theorem mayAlias_of_mustAlias (h : p.mustAlias q = true) : p.mayAlias q = true := by
  obtain ⟨key, hp, hq⟩ := mustAlias_iff.mp h
  rw [strongTarget?_eq_some_iff] at hp hq
  subst hp hq
  exact mayAlias_iff.mpr ⟨key, contains_single_iff.mpr rfl, contains_single_iff.mpr rfl⟩

theorem mayAlias_of_below (hp : Below p p') (hq : Below q q') (h : p.mayAlias q = true) :
    p'.mayAlias q' = true := by
  obtain ⟨key, hkp, hkq⟩ := mayAlias_iff.mp h
  exact mayAlias_iff.mpr ⟨key, contains_of_below hp hkp, contains_of_below hq hkq⟩

/-- A set with a strong target has no set below it but itself and the empty one. -/
theorem mustAlias_of_below (hp : Below p p') (hq : Below q q') (hpne : p ≠ .bottom)
    (hqne : q ≠ .bottom) (h : p'.mustAlias q' = true) : p.mustAlias q = true := by
  obtain ⟨key, hkp, hkq⟩ := mustAlias_iff.mp h
  exact mustAlias_iff.mpr
    ⟨key, strongTarget?_of_below hp hpne hkp, strongTarget?_of_below hq hqne hkq⟩

/-- **Aliasing agrees with the order.** Two sets may alias iff their meet is not empty, and do if
they must. Larger sets may alias as well, and sets that must alias still must when they are
replaced by smaller ones, none of them empty. -/
theorem aliasing_agrees_with_order :
    (∀ p q : PointsTo, ∃ r, meet p q = .ok r ∧ (p.mayAlias q = true ↔ isBottom r = false)) ∧
    (∀ p q : PointsTo, p.mustAlias q = true → p.mayAlias q = true) ∧
    ∀ p p' q q' : PointsTo, Below p p' → Below q q' →
      (p.mayAlias q = true → p'.mayAlias q' = true) ∧
      (p ≠ .bottom → q ≠ .bottom → p'.mustAlias q' = true → p.mustAlias q = true) := by
  refine ⟨fun p q => ?_, fun p q => mayAlias_of_mustAlias, fun p p' q q' hp hq =>
    ⟨mayAlias_of_below hp hq, mustAlias_of_below hp hq⟩⟩
  obtain ⟨r, hr, -⟩ := exists_meet p q
  exact ⟨r, hr, mayAlias_iff_meet hr⟩

/-- A single node, which must alias itself, and a larger set that has the node weakly and the head
of the list. Two pointers with the larger set may refer to different nodes. -/
theorem aliasing_agrees_with_order_node :
    let node : PointsTo := .single ⟨⟨"node", none⟩, .strong⟩
    let list : PointsTo := .ofSites [⟨⟨"node", none⟩, .weak⟩, ⟨⟨"head", none⟩, .strong⟩]
    Below node list ∧ Below node .top ∧ list.mayAlias .top = true ∧
      Below node node ∧ node ≠ .bottom ∧ node.mustAlias node = true ∧
      node.mayAlias node = true ∧ list.mustAlias list = false := by
  intro node list
  have hlist : Below node list := rfl
  have htop : Below node .top := rfl
  have hself : Below node node := rfl
  have hne : node ≠ .bottom := by decide
  have hmay : node.mayAlias node = true :=
    aliasing_agrees_with_order.2.1 node node (by decide)
  exact ⟨hlist, htop, (aliasing_agrees_with_order.2.2 _ _ _ _ hlist htop).1 hmay, hself, hne,
    (aliasing_agrees_with_order.2.2 _ _ _ _ hself hself).2 hne hne (by decide), hmay, by decide⟩

end PointsTo

/-! ## Runs -/

/-- The objects and the pointers of a program, and the table that the analysis keeps of them. -/
structure PointerState (O P : Type) where
  /-- The location that allocated an object. -/
  origin : O → Option Location
  /-- The cell a pointer refers to, and the sites the analysis gave the pointer. -/
  pointers : P → Option (Cell O × PointsTo)
  table : SiteTable

/-- Before anything is allocated. -/
def PointerState.initial {O P : Type} : PointerState O P where
  origin _ := none
  pointers _ := none
  table := .empty

variable {O P : Type} [DecidableEq O] [DecidableEq P]

/-- **One step of the program**, followed by the analysis, or a call on the table that is no
allocation. A pointer is given any set that contains the key of its cell. -/
inductive PointerStep : PointerState O P → PointerState O P → Prop
  | allocate {s table site} (o : O) (l : Location) (field : Option Expr) : s.origin o = none →
      s.table.allocate l field = .ok (table, site) →
      PointerStep s { s with origin := Function.update s.origin o (some l), table }
  | call {s} (c : SiteCall) : PointerStep s { s with table := s.table.after c }
  | point {s} (p : P) (cell : Cell O) (l : Location) (set : PointsTo) :
      s.origin cell.object = some l → set.contains ⟨l, cell.field⟩ = true →
      PointerStep s { s with pointers := Function.update s.pointers p (some (cell, set)) }

variable {s s' : PointerState O P}

/-- **What holds throughout a run.** The table is right about the objects, and pointers may refer to
their cells. -/
structure PointerState.Sound (s : PointerState O P) : Prop where
  objects : SingleObjects s.table s.origin
  points : ∀ {p cell set}, s.pointers p = some (cell, set) →
    ∃ l, s.origin cell.object = some l ∧ set.contains ⟨l, cell.field⟩ = true

omit [DecidableEq O] in
/-- A call on the table makes no location strong that has objects. -/
theorem SingleObjects.after {table : SiteTable} {origin : O → Option Location}
    (h : SingleObjects table origin) (c : SiteCall) : SingleObjects (table.after c) origin where
  seen hl := SiteTable.seen_after_iff.mpr (.inl (h.seen hl))
  single hstrong h₁ h₂ := by
    obtain ⟨strength, hs⟩ := h.seen h₁
    cases strength with
    | strong => exact h.single hs h₁ h₂
    | weak =>
      have hweak : (table.after c).strength? _ = some .weak :=
        SiteTable.weak_after_iff.mpr (.inl hs)
      exact absurd (hstrong.symm.trans hweak) (by simp)

/-- **One step keeps the invariant.** -/
theorem PointerStep.sound (h : s.Sound) (hstep : PointerStep s s') : s'.Sound := by
  cases hstep with
  | allocate o l field ho halloc =>
    refine ⟨h.objects.allocate halloc, fun hp => ?_⟩
    obtain ⟨l', hl', hset⟩ := h.points hp
    exact ⟨l', origin_update ho hl', hset⟩
  | call c => exact ⟨h.objects.after c, h.points⟩
  | point p cell l set hl hset =>
    refine ⟨h.objects, fun {p' cell' set'} hp' => ?_⟩
    rcases update_eq_some hp' with ⟨-, hpair⟩ | ⟨-, hp'⟩
    · obtain ⟨rfl, rfl⟩ := Prod.mk.inj hpair
      exact ⟨l, hl, hset⟩
    · exact h.points hp'

theorem PointerState.sound_of_run
    (hrun : Relation.ReflTransGen PointerStep (.initial : PointerState O P) s) : s.Sound := by
  induction hrun with
  | refl => exact ⟨.empty, fun hp => absurd hp (by simp [PointerState.initial])⟩
  | tail _ hstep ih => exact hstep.sound ih

/-! ## What the answers say -/

section Answers

variable {p q : P} {cell cell' : Cell O} {set set' : PointsTo}

omit [DecidableEq O] [DecidableEq P]

/-- Pointers whose refreshed sets have the same strong target refer to the same cell. -/
theorem PointerState.Sound.eq_of_mustAlias (h : s.Sound) (hp : s.pointers p = some (cell, set))
    (hq : s.pointers q = some (cell', set'))
    (hmust : (set.refresh s.table).mustAlias (set'.refresh s.table) = true) : cell = cell' := by
  obtain ⟨key, hkey, hkey'⟩ := PointsTo.mustAlias_iff.mp hmust
  obtain ⟨l, hl, hset⟩ := h.points hp
  obtain ⟨l', hl', hset'⟩ := h.points hq
  -- both cells have the target for their key
  obtain rfl := PointsTo.eq_of_strongTarget? hkey (PointsTo.contains_refresh.trans hset)
  have hsame := PointsTo.eq_of_strongTarget? hkey' (PointsTo.contains_refresh.trans hset')
  obtain ⟨rfl, hfield⟩ := SiteKey.mk.inj hsame
  exact h.objects.eq_of_strongTarget? hset hkey ⟨hl, rfl⟩ ⟨hl', hfield.symm⟩

/-- Pointers to the same cell have its key in common. -/
theorem PointerState.Sound.mayAlias (h : s.Sound) (hp : s.pointers p = some (cell, set))
    (hq : s.pointers q = some (cell, set')) : set.mayAlias set' = true := by
  obtain ⟨l, hl, hset⟩ := h.points hp
  obtain ⟨l', hl', hset'⟩ := h.points hq
  obtain rfl := Option.some.inj (hl.symm.trans hl')
  exact PointsTo.mayAlias_iff.mpr ⟨⟨l, cell.field⟩, hset, hset'⟩

end Answers

/-- **Alias answers are right.** In every run and of any two pointers: if their refreshed sets must
alias, they refer to the same cell of the same object, and if their sets may not alias, to different
cells. A run can always go on, since allocations never fail. -/
theorem alias_answers_right
    (hrun : Relation.ReflTransGen PointerStep (.initial : PointerState O P) s) :
    (∀ p q cell cell' set set', s.pointers p = some (cell, set) →
      s.pointers q = some (cell', set') →
      ((set.refresh s.table).mustAlias (set'.refresh s.table) = true → cell = cell') ∧
        (set.mayAlias set' = false → cell ≠ cell')) ∧
      ∀ l field, (s.table.allocate l field).Succeeds := by
  have hs : s.Sound := PointerState.sound_of_run hrun
  refine ⟨fun p q cell cell' set set' hp hq => ⟨hs.eq_of_mustAlias hp hq, ?_⟩,
    s.table.allocate_succeeds⟩
  rintro hnot rfl
  rw [hs.mayAlias hp hq] at hnot
  exact absurd hnot (by simp)

/-- Two pointers to the head of a list, and two more to nodes that a loop allocates. The sets of
these are as strong as when the first node was the only one: they would say that the nodes are the
same, and no longer do once they are refreshed. -/
theorem alias_answers_right_list :
    let head : PointsTo := .single ⟨⟨"head", none⟩, .strong⟩
    let node : PointsTo := .single ⟨⟨"node", none⟩, .strong⟩
    ∃ s : PointerState Nat Nat, Relation.ReflTransGen PointerStep .initial s ∧
      ∃ first second third fourth : Cell Nat,
        s.pointers 0 = some (first, head) ∧ s.pointers 1 = some (second, head) ∧
        s.pointers 2 = some (third, node) ∧ s.pointers 3 = some (fourth, node) ∧
        (head.refresh s.table).mustAlias (head.refresh s.table) = true ∧ first = second ∧
        head.mayAlias node = false ∧ first ≠ third ∧
        node.mustAlias node = true ∧ third ≠ fourth ∧
        (node.refresh s.table).mustAlias (node.refresh s.table) = false := by
  intro head node
  obtain ⟨s, hrun, h₀, h₁, h₂, h₃, hmust, hnot⟩ : ∃ s : PointerState Nat Nat,
      Relation.ReflTransGen PointerStep .initial s ∧
      s.pointers 0 = some (⟨0, none⟩, head) ∧ s.pointers 1 = some (⟨0, none⟩, head) ∧
      s.pointers 2 = some (⟨1, none⟩, node) ∧ s.pointers 3 = some (⟨2, none⟩, node) ∧
      (head.refresh s.table).mustAlias (head.refresh s.table) = true ∧
      (node.refresh s.table).mustAlias (node.refresh s.table) = false := by
    let one : SiteTable := ⟨.ofList [("head", .strong)]⟩
    let two : SiteTable := ⟨.ofList [("head", .strong), ("node", .strong)]⟩
    let three : SiteTable := ⟨.ofList [("head", .strong), ("node", .weak)]⟩
    have hone : SiteTable.empty.allocate "head" none = .ok (one, ⟨⟨"head", none⟩, .strong⟩) := by
      decide
    have htwo : one.allocate "node" none = .ok (two, ⟨⟨"node", none⟩, .strong⟩) := by decide
    have hthree : two.allocate "node" none = .ok (three, ⟨⟨"node", none⟩, .weak⟩) := by decide
    refine ⟨?_, .head (.allocate 0 "head" none rfl hone) ?_, ?_⟩
    rotate_left
    refine .head (.point 0 ⟨0, none⟩ "head" head rfl rfl) ?_
    refine .head (.point 1 ⟨0, none⟩ "head" head rfl rfl) ?_
    refine .head (.allocate 1 "node" none rfl htwo) ?_
    refine .head (.point 2 ⟨1, none⟩ "node" node rfl rfl) ?_
    refine .head (.allocate 2 "node" none rfl hthree) ?_
    refine .head (.point 3 ⟨2, none⟩ "node" node rfl rfl) ?_
    · exact .refl
    exact ⟨rfl, rfl, rfl, rfl, by decide, by decide⟩
  obtain ⟨hanswers, -⟩ := alias_answers_right hrun
  have hsame := (hanswers 0 1 _ _ _ _ h₀ h₁).1 hmust
  have hdiffer := (hanswers 0 2 _ _ _ _ h₀ h₂).2 rfl
  exact ⟨s, hrun, _, _, _, _, h₀, h₁, h₂, h₃, hmust, hsame, rfl, hdiffer, rfl, by decide, hnot⟩

end AbstractDomains
