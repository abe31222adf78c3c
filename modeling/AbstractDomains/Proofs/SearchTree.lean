import Mathlib.Data.Tree.Basic
import AbstractDomains.FinMap

/-!
# Search trees

The entries of a finite map can be kept in any binary tree that lists them in order. A search
compares the key with that of a node and goes on in one of its subtrees only. It never misses an
entry, as everything in the other subtree compares as the node does: that is what takes a total
order of the keys.

Results:
* `SearchTree.search_eq_lookup`: a search finds what the list of the entries holds.
* `FinMap.findsEntries`: what is found in a map, and in every search tree of its entries.
-/

namespace AbstractDomains

variable {κ α : Type} [Ord κ]

namespace SearchTree

/-- The entries of a tree from left to right. -/
def inorder : BinaryTree α → List α
  | .nil => []
  | .node a left right => inorder left ++ a :: inorder right

/-- What a tree holds under a key, if its entries are in order. -/
def search (k : κ) : BinaryTree (κ × α) → Option α
  | .nil => none
  | .node (k', v) left right =>
    match compare k k' with
    | .lt => search k left
    | .eq => some v
    | .gt => search k right

variable {k : κ} {l l' : List (κ × α)}

theorem lookup_append_of_gt (h : ∀ e ∈ l, compare k e.1 = .gt) :
    FinMap.lookup k (l ++ l') = FinMap.lookup k l' := by
  induction l with
  | nil => rfl
  | cons e rest ih =>
    obtain ⟨hhead, hrest⟩ := List.forall_mem_cons.mp h
    rw [List.cons_append, FinMap.lookup, hhead]
    exact ih hrest

theorem lookup_append_of_lt (h : ∀ e ∈ l', compare k e.1 = .lt) :
    FinMap.lookup k (l ++ l') = FinMap.lookup k l := by
  induction l with
  | nil => exact FinMap.lookup_eq_none h
  | cons e rest ih => rw [List.cons_append, FinMap.lookup, FinMap.lookup, ih]

/-- **A search** finds what the list of the entries holds. -/
theorem search_eq_lookup [Std.TransOrd κ] {tree : BinaryTree (κ × α)}
    (h : (inorder tree).Pairwise fun a b => compare a.1 b.1 = .lt) :
    search k tree = FinMap.lookup k (inorder tree) := by
  induction tree with
  | nil => rfl
  | node e left right ihl ihr =>
    obtain ⟨k', v⟩ := e
    obtain ⟨hleft, hnode, hcross⟩ := List.pairwise_append.mp h
    obtain ⟨habove, hright⟩ := List.pairwise_cons.mp hnode
    have hbelow : ∀ e ∈ inorder left, compare e.1 k' = .lt :=
      fun e he => hcross e he (k', v) List.mem_cons_self
    rw [search, inorder]
    cases hk : compare k k' with
    | lt =>
      have hnode : ∀ e ∈ (k', v) :: inorder right, compare k e.1 = .lt :=
        List.forall_mem_cons.mpr ⟨hk, fun e he => Std.TransCmp.lt_trans hk (habove e he)⟩
      rw [lookup_append_of_lt hnode]
      exact ihl hleft
    | eq =>
      have hgt : ∀ e ∈ inorder left, compare k e.1 = .gt := fun e he =>
        Std.OrientedCmp.gt_of_lt (Std.TransCmp.lt_of_lt_of_eq (hbelow e he)
          (Std.OrientedCmp.eq_symm hk))
      rw [lookup_append_of_gt hgt, FinMap.lookup, if_pos hk]
    | gt =>
      have hgt : ∀ e ∈ inorder left, compare k e.1 = .gt := fun e he =>
        Std.OrientedCmp.gt_of_lt (Std.TransCmp.lt_trans (hbelow e he)
          (Std.OrientedCmp.lt_of_gt hk))
      have hne : ¬ compare k k' = .eq := by simp [hk]
      rw [lookup_append_of_gt hgt, FinMap.lookup, if_neg hne]
      exact ihr hright

end SearchTree

namespace FinMap

open SearchTree (inorder search)

/-- Under a key a map holds what was put there last. That is the value of the only entry with the
key, and what a search finds in every tree of the entries. -/
structure FindsEntries (κ α : Type) [Ord κ] [DecidableEq κ] [Std.TransOrd κ] : Prop where
  get?_insert : ∀ (m : FinMap κ α) (k k' : κ) (v : α),
    (m.insert k v).get? k' = if k' = k then some v else m.get? k'
  get?_erase : ∀ (m : FinMap κ α) (k k' : κ),
    (m.erase k).get? k' = if k' = k then none else m.get? k'
  get?_eq_some_iff : ∀ (m : FinMap κ α) (k : κ) (v : α), m.get? k = some v ↔ (k, v) ∈ m.entries
  keys_nodup : ∀ m : FinMap κ α, m.keys.Nodup
  search_eq : ∀ (m : FinMap κ α) (tree : BinaryTree (κ × α)), inorder tree = m.entries →
    ∀ k, search k tree = m.get? k

variable [Std.TransOrd κ]

theorem keys_nodup (m : FinMap κ α) : m.keys.Nodup := by
  refine List.pairwise_map.mpr (m.ascending.imp fun {a b} h heq => ?_)
  have hself : compare b.1 b.1 = .eq := Std.ReflCmp.compare_self
  rw [heq, hself] at h
  cases h

/-- **Keys that are totally ordered are found.** -/
theorem findsEntries [DecidableEq κ] [Std.LawfulEqOrd κ] : FindsEntries κ α where
  get?_insert := FinMap.get?_insert
  get?_erase := FinMap.get?_erase
  get?_eq_some_iff _ _ _ := mem_entries_iff.symm
  keys_nodup := keys_nodup
  search_eq m tree h k := by
    rw [SearchTree.search_eq_lookup (h ▸ m.ascending), h]
    rfl

end FinMap

end AbstractDomains
