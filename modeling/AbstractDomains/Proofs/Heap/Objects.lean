import Mathlib.Logic.Function.Basic
import AbstractDomains.Proofs.Heap.PointsTo

/-!
# Objects and their locations

A location allocates objects one after the other, and they all share its site. The table keeps
track of whether there are several: a location is weak from its second allocation on.

Results:
* `SingleObjects`: what a table says about the objects of a program.
* `SingleObjects.eq_of_strongTarget?`: the only target of a refreshed set is a single cell.
* `SingleObjects.allocate`: a table stays right when a location allocates an object.
-/

namespace AbstractDomains

/-- An object, or with a field one of its cells. -/
structure Cell (O : Type) where
  object : O
  field : Option Expr
deriving DecidableEq

variable {O : Type} {table table' : SiteTable} {site : AllocationSite} {origin : O → Option Location}
  {o : O} {l : Location} {field : Option Expr}

/-- **A table that is right about the objects**, given the location that each was allocated by. All
these locations are in the table, and those that are strong allocated a single object. -/
structure SingleObjects (table : SiteTable) (origin : O → Option Location) : Prop where
  seen : ∀ {o l}, origin o = some l → ∃ strength, table.strength? l = some strength
  single : ∀ {o o' l}, table.strength? l = some .strong → origin o = some l →
    origin o' = some l → o = o'

theorem SingleObjects.empty : SingleObjects .empty fun _ : O => none where
  seen h := absurd h (by simp)
  single _ h := absurd h (by simp)

/-- **A strong target is a single cell**: two cells that both have it for their key are the same. -/
theorem SingleObjects.eq_of_strongTarget? (h : SingleObjects table origin) {set : PointsTo}
    {key : SiteKey} {cell cell' : Cell O} (hset : set.contains key = true)
    (htarget : (set.refresh table).strongTarget? = some key)
    (hcell : origin cell.object = some key.location ∧ key.field = cell.field)
    (hcell' : origin cell'.object = some key.location ∧ key.field = cell'.field) :
    cell = cell' := by
  obtain ⟨strength, hs⟩ := h.seen hcell.1
  obtain rfl := PointsTo.strong_of_strongTarget?_refresh htarget hset hs
  have hobject : cell.object = cell'.object := h.single hs hcell.1 hcell'.1
  have hfield : cell.field = cell'.field := hcell.2.symm.trans hcell'.2
  cases cell
  cases cell'
  simp_all

variable [DecidableEq O]

/-- What is there after an update is the new value, or was there before. -/
theorem update_eq_some {α : Type} {f : O → Option α} {o' : O} {a b : α}
    (h : Function.update f o (some a) o' = some b) :
    (o' = o ∧ a = b) ∨ (o' ≠ o ∧ f o' = some b) := by
  by_cases ho : o' = o
  · rw [ho, Function.update_self] at h
    exact .inl ⟨ho, Option.some.inj h⟩
  · rw [Function.update_of_ne ho] at h
    exact .inr ⟨ho, h⟩

/-- An object stays where it was allocated. -/
theorem origin_update {o' : O} {l' : Location} (ho : origin o = none) (h : origin o' = some l') :
    Function.update origin o (some l) o' = some l' := by
  have hne : o' ≠ o := by
    rintro rfl
    rw [ho] at h
    exact absurd h (by simp)
  rw [Function.update_of_ne hne, h]

/-- **An allocation keeps the table right**: a location is strong after it only if it was new. -/
theorem SingleObjects.allocate (h : SingleObjects table origin)
    (halloc : table.allocate l field = .ok (table', site)) :
    SingleObjects table' (Function.update origin o (some l)) := by
  have hstrength := SiteTable.strength?_allocate halloc
  -- an object at another location was there before
  have hold : ∀ {o' l'}, l' ≠ l → Function.update origin o (some l) o' = some l' →
      origin o' = some l' := by
    intro o' l' hne hl'
    rcases update_eq_some hl' with ⟨-, rfl⟩ | ⟨-, hl'⟩
    · exact absurd rfl hne
    · exact hl'
  constructor
  · intro o' l' hl'
    rw [hstrength]
    split
    · exact ⟨_, rfl⟩
    · rename_i hne
      exact h.seen (hold hne hl')
  · intro o₁ o₂ l' hstrong h₁ h₂
    rw [hstrength] at hstrong
    split at hstrong
    · rename_i heq
      subst heq
      -- a location that is strong now was new, so it has allocated nothing else
      have hnew : table.strength? l' = none := by
        by_contra hseen
        rw [if_neg hseen] at hstrong
        exact absurd hstrong (by simp)
      have honly : ∀ {o'}, Function.update origin o (some l') o' = some l' → o' = o := by
        intro o' ho'
        rcases update_eq_some ho' with ⟨rfl, -⟩ | ⟨-, ho'⟩
        · rfl
        · obtain ⟨strength, hs⟩ := h.seen ho'
          rw [hnew] at hs
          exact absurd hs (by simp)
      rw [honly h₁, honly h₂]
    · rename_i hne
      exact h.single hstrong (hold hne h₁) (hold hne h₂)

end AbstractDomains
