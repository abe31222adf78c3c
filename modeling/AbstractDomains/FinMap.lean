/-!
# Finite maps

`FinMap κ α` is a finite map from a linearly ordered type of keys, kept as the list of its entries in
ascending order of keys. So a map has one representation, and equality of maps is equality of what
they hold.

Results:
* `FinMap.get?_empty`, `FinMap.get?_insert`, `FinMap.get?_erase`: what each operation does to `get?`.
* `FinMap.mem_entries_iff`: the entries are what `get?` finds.
* `FinMap.ext_get?`: maps that hold the same are equal.
-/

namespace AbstractDomains

/-- A finite map with its entries in ascending order of keys. -/
structure FinMap (κ α : Type) [Ord κ] where
  entries : List (κ × α)
  ascending : entries.Pairwise fun a b => compare a.1 b.1 = .lt

namespace FinMap

variable {κ α β : Type} [Ord κ]

theorem ext {m n : FinMap κ α} (h : m.entries = n.entries) : m = n := by
  cases m
  cases n
  simp_all

instance [DecidableEq κ] [DecidableEq α] : DecidableEq (FinMap κ α) := fun m n =>
  decidable_of_iff (m.entries = n.entries) ⟨ext, fun h => h ▸ rfl⟩

/-! ## Lists of entries -/

/-- The value under a key in a list of entries. -/
def lookup (k : κ) : List (κ × α) → Option α
  | [] => none
  | (k', v) :: rest => if compare k k' = .eq then some v else lookup k rest

/-- The list of entries with a value put under a key, in its place. -/
def place (k : κ) (v : α) : List (κ × α) → List (κ × α)
  | [] => [(k, v)]
  | (k', w) :: rest =>
    match compare k k' with
    | .lt => (k, v) :: (k', w) :: rest
    | .eq => (k, v) :: rest
    | .gt => (k', w) :: place k v rest

theorem key_of_mem_place {k : κ} {v : α} {l : List (κ × α)} {e : κ × α} (h : e ∈ place k v l) :
    e.1 = k ∨ e ∈ l := by
  induction l with
  | nil => simp_all [place]
  | cons e' rest ih =>
    obtain ⟨k', w⟩ := e'
    unfold place at h
    split at h <;> simp only [List.mem_cons] at h ⊢
    · rcases h with h | h <;> simp_all
    · rcases h with h | h <;> simp_all
    · rcases h with h | h
      · exact .inr (.inl h)
      · exact (ih h).imp id .inr

theorem lookup_eq_none {k : κ} {l : List (κ × α)} (h : ∀ e ∈ l, compare k e.1 = .lt) :
    lookup k l = none := by
  induction l with
  | nil => rfl
  | cons e rest ih =>
    have := h e List.mem_cons_self
    simp only [lookup, this]
    exact ih fun e' he => h e' (List.mem_cons_of_mem _ he)

section

variable [Std.TransOrd κ]

theorem ascending_place (k : κ) (v : α) {l : List (κ × α)}
    (h : l.Pairwise fun a b => compare a.1 b.1 = .lt) :
    (place k v l).Pairwise fun a b => compare a.1 b.1 = .lt := by
  induction l with
  | nil => simp [place]
  | cons e rest ih =>
    obtain ⟨k', w⟩ := e
    obtain ⟨head, tail⟩ := List.pairwise_cons.1 h
    unfold place
    split
    · next hk =>
      refine List.pairwise_cons.2 ⟨fun e he => ?_, h⟩
      rcases List.mem_cons.1 he with rfl | he
      · exact hk
      · exact Std.TransCmp.lt_trans hk (head e he)
    · next hk =>
      exact List.pairwise_cons.2 ⟨fun e he => Std.TransCmp.lt_of_eq_of_lt hk (head e he), tail⟩
    · next hk =>
      refine List.pairwise_cons.2 ⟨fun e he => ?_, ih tail⟩
      rcases key_of_mem_place he with he | he
      · rw [he]
        exact Std.OrientedCmp.gt_iff_lt.1 hk
      · exact head e he

end

/-! ## Maps -/

/-- The map that holds nothing. -/
def empty : FinMap κ α :=
  ⟨[], .nil⟩

/-- The value under a key. -/
def get? (m : FinMap κ α) (k : κ) : Option α :=
  lookup k m.entries

/-- Whether a key has a value. -/
def contains (m : FinMap κ α) (k : κ) : Bool :=
  (m.get? k).isSome

/-- The keys in ascending order. -/
def keys (m : FinMap κ α) : List κ :=
  m.entries.map (·.1)

/-- The values in order of their keys. -/
def values (m : FinMap κ α) : List α :=
  m.entries.map (·.2)

/-- How many keys have a value. -/
def size (m : FinMap κ α) : Nat :=
  m.entries.length

/-- Whether no key has a value. -/
def isEmpty (m : FinMap κ α) : Bool :=
  m.entries.isEmpty

/-- The map without a key. -/
def erase (m : FinMap κ α) (k : κ) : FinMap κ α :=
  ⟨m.entries.filter fun e => compare k e.1 != .eq, m.ascending.filter _⟩

/-- The map of what a function gives for each entry. -/
def filterMap (f : κ → α → Option β) (m : FinMap κ α) : FinMap κ β where
  entries := m.entries.filterMap fun e => (f e.1 e.2).map (e.1, ·)
  ascending := by
    refine List.pairwise_filterMap.2 (m.ascending.imp ?_)
    intro a b h a' ha b' hb
    obtain ⟨v, -, rfl⟩ := Option.map_eq_some_iff.1 ha
    obtain ⟨w, -, rfl⟩ := Option.map_eq_some_iff.1 hb
    exact h

section

variable [Std.TransOrd κ]

/-- The map with a value put under a key, in place of any it had. -/
def insert (m : FinMap κ α) (k : κ) (v : α) : FinMap κ α :=
  ⟨place k v m.entries, ascending_place k v m.ascending⟩

/-- The map of the listed entries; the last one for a key counts. -/
def ofList (entries : List (κ × α)) : FinMap κ α :=
  entries.foldl (fun m e => m.insert e.1 e.2) empty

/-- As `filterMap`, one entry after the other, with a function that can fail. -/
def filterMapM {m : Type → Type} [Monad m] (f : κ → α → m (Option β)) (entries : FinMap κ α) :
    m (FinMap κ β) :=
  entries.entries.foldlM (fun kept e => do
    match ← f e.1 e.2 with
    | some w => return kept.insert e.1 w
    | none => return kept) empty

end

/-! ## What the operations do to `get?` -/

@[simp]
theorem get?_empty (k : κ) : (empty : FinMap κ α).get? k = none :=
  rfl

variable [Std.LawfulEqOrd κ]

theorem get?_erase [DecidableEq κ] (m : FinMap κ α) (k k' : κ) :
    (m.erase k).get? k' = if k' = k then none else m.get? k' := by
  simp only [get?, erase]
  induction m.entries with
  | nil => simp [lookup]
  | cons e rest ih =>
    obtain ⟨k₁, w⟩ := e
    by_cases h : k = k₁
    · simp only [h, Std.ReflCmp.compare_self, bne_self_eq_false, Bool.false_eq_true,
        not_false_eq_true, List.filter_cons_of_neg, lookup]
      rw [← h, ih]
      by_cases hk : k' = k <;> simp [hk]
    · have h' : compare k k₁ ≠ .eq := fun e => h (Std.LawfulEqOrd.eq_of_compare e)
      simp only [bne_iff_ne, ne_eq, h', not_false_eq_true, List.filter_cons_of_pos, lookup, ih,
        Std.LawfulEqOrd.compare_eq_iff_eq]
      by_cases hk : k' = k
      · simp [hk, h]
      · simp [hk]

section

variable [Std.TransOrd κ]

theorem get?_insert [DecidableEq κ] (m : FinMap κ α) (k k' : κ) (v : α) :
    (m.insert k v).get? k' = if k' = k then some v else m.get? k' := by
  simp only [get?, insert]
  induction m.entries with
  | nil => simp [place, lookup]
  | cons e rest ih =>
    obtain ⟨k₁, w⟩ := e
    unfold place
    split
    · next h => by_cases hk : k' = k <;> simp [lookup, hk]
    · next h =>
      obtain rfl := Std.LawfulEqOrd.eq_of_compare h
      by_cases hk : k' = k <;> simp [lookup, hk]
    · next h =>
      simp only [lookup, ih, Std.LawfulEqOrd.compare_eq_iff_eq]
      by_cases hk : k' = k
      · have : ¬ k = k₁ := fun e => by simp [e] at h
        simp [hk, this]
      · simp [hk]

end

/-! ## Entries and extensionality -/

theorem lookup_eq_some_iff {k : κ} {v : α} {l : List (κ × α)}
    (h : l.Pairwise fun a b => compare a.1 b.1 = .lt) : lookup k l = some v ↔ (k, v) ∈ l := by
  induction l with
  | nil => simp [lookup]
  | cons e rest ih =>
    obtain ⟨k', w⟩ := e
    obtain ⟨head, tail⟩ := List.pairwise_cons.1 h
    simp only [lookup, Std.LawfulEqOrd.compare_eq_iff_eq, List.mem_cons, Prod.mk.injEq]
    by_cases hk : k = k'
    · subst hk
      have : (k, v) ∉ rest := fun hm => by simpa using head _ hm
      simp [this, eq_comm]
    · simp [hk, ih tail]

theorem mem_entries_iff {m : FinMap κ α} {k : κ} {v : α} :
    (k, v) ∈ m.entries ↔ m.get? k = some v :=
  (lookup_eq_some_iff m.ascending).symm

variable [Std.TransOrd κ]

theorem eq_of_lookup {l l' : List (κ × α)} (h : l.Pairwise fun a b => compare a.1 b.1 = .lt)
    (h' : l'.Pairwise fun a b => compare a.1 b.1 = .lt)
    (hl : ∀ k, lookup k l = lookup k l') : l = l' := by
  induction l generalizing l' with
  | nil =>
    cases l' with
    | nil => rfl
    | cons e rest => simpa [lookup] using hl e.1
  | cons e rest ih =>
    cases l' with
    | nil => simpa [lookup] using hl e.1
    | cons e' rest' =>
      obtain ⟨head, tail⟩ := List.pairwise_cons.1 h
      obtain ⟨head', tail'⟩ := List.pairwise_cons.1 h'
      have hm : e ∈ e' :: rest' := by
        rw [← lookup_eq_some_iff h', ← hl, lookup_eq_some_iff h]
        exact List.mem_cons_self
      have hm' : e' ∈ e :: rest := by
        rw [← lookup_eq_some_iff h, hl, lookup_eq_some_iff h']
        exact List.mem_cons_self
      have he : e = e' := by
        rcases List.mem_cons.1 hm with rfl | hm
        · rfl
        · rcases List.mem_cons.1 hm' with rfl | hm'
          · rfl
          · have := Std.TransCmp.lt_trans (head _ hm') (head' _ hm)
            simp at this
      subst he
      refine congrArg _ (ih tail tail' fun k => ?_)
      by_cases hk : compare k e.1 = .eq
      · obtain rfl := Std.LawfulEqOrd.eq_of_compare hk
        rw [lookup_eq_none head, lookup_eq_none head']
      · simpa [lookup, hk] using hl k

theorem ext_get? {m n : FinMap κ α} (h : ∀ k, m.get? k = n.get? k) : m = n :=
  ext (eq_of_lookup m.ascending n.ascending h)

end FinMap

end AbstractDomains
