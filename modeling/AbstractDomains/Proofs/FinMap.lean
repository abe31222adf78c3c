import AbstractDomains.FinMap
import AbstractDomains.Proofs.Outcome

/-!
# Maps built entry by entry

`FinMap.filterMapM` visits the entries of a map in order and keeps what a function that can fail
gives for each.

Results:
* `FinMap.mem_of_get?_ofList`: a map built from a list holds nothing else.
* `FinMap.get?_filterMapM`: under each key of the old map the new one holds the function's result,
  and it has no other keys.
-/

namespace AbstractDomains.FinMap

variable {κ α β : Type} [Ord κ]

theorem contains_iff {m : FinMap κ α} {k : κ} : m.contains k = true ↔ ∃ v, m.get? k = some v :=
  Option.isSome_iff_exists

variable [Std.LawfulEqOrd κ]

theorem mem_keys_iff {m : FinMap κ α} {k : κ} : k ∈ m.keys ↔ m.contains k = true := by
  rw [contains_iff]
  constructor
  · intro h
    obtain ⟨e, he, rfl⟩ := List.mem_map.mp h
    exact ⟨e.2, mem_entries_iff.mp he⟩
  · rintro ⟨v, hv⟩
    exact List.mem_map.mpr ⟨(k, v), mem_entries_iff.mpr hv, rfl⟩

theorem get?_filterMap (f : κ → α → Option β) (m : FinMap κ α) (k : κ) :
    (m.filterMap f).get? k = (m.get? k).bind (f k) := by
  refine Option.ext fun w => ?_
  rw [← mem_entries_iff, Option.bind_eq_some_iff]
  constructor
  · intro h
    obtain ⟨e, he, hw⟩ := List.mem_filterMap.mp h
    obtain ⟨w', hw', heq⟩ := Option.map_eq_some_iff.mp hw
    obtain ⟨rfl, rfl⟩ := Prod.mk.inj heq
    exact ⟨e.2, mem_entries_iff.mp he, hw'⟩
  · rintro ⟨v, hv, hw⟩
    exact List.mem_filterMap.mpr ⟨(k, v), mem_entries_iff.mpr hv, Option.map_eq_some_iff.mpr
      ⟨w, hw, rfl⟩⟩

variable [Std.TransOrd κ] [DecidableEq κ]

theorem mem_of_get?_foldl_insert {k : κ} {v : α} :
    ∀ {l : List (κ × α)} {m : FinMap κ α},
      (l.foldl (fun m e => m.insert e.1 e.2) m).get? k = some v → (k, v) ∈ l ∨ m.get? k = some v
  | [], _, h => .inr h
  | (k₀, v₀) :: rest, m, h => by
    rcases mem_of_get?_foldl_insert (l := rest) h with h | h
    · exact .inl (List.mem_cons_of_mem _ h)
    · rw [get?_insert] at h
      split at h
      · rename_i hk
        rw [hk, ← Option.some.inj h]
        exact .inl List.mem_cons_self
      · exact .inr h

/-- What a map built from a list holds is in the list. -/
theorem mem_of_get?_ofList {l : List (κ × α)} {k : κ} {v : α} (h : (ofList l).get? k = some v) :
    (k, v) ∈ l := by
  rcases mem_of_get?_foldl_insert h with h | h
  · exact h
  · exact nomatch h

theorem contains_insert {m : FinMap κ α} {k k' : κ} {v : α} :
    (m.insert k v).contains k' = (decide (k' = k) || m.contains k') := by
  unfold contains
  rw [get?_insert]
  by_cases h : k' = k <;> simp [h]

/-- One step of `filterMapM`. -/
def keep (f : κ → α → Analysis (Option β)) (kept : FinMap κ β) (e : κ × α) :
    Analysis (FinMap κ β) := do
  match ← f e.1 e.2 with
  | some w => return kept.insert e.1 w
  | none => return kept

theorem get?_keep {f : κ → α → Analysis (Option β)} {kept kept' : FinMap κ β} {e : κ × α}
    (h : keep f kept e = .ok kept') :
    ∃ r, f e.1 e.2 = .ok r ∧
      ∀ k, kept'.get? k = if k = e.1 then r.or (kept.get? k) else kept.get? k := by
  unfold keep at h
  obtain ⟨r, hr, h⟩ := Analysis.bind_eq_ok.mp h
  refine ⟨r, hr, fun k => ?_⟩
  cases r with
  | none =>
    obtain rfl := Analysis.pure_eq_ok.mp h
    simp
  | some w =>
    obtain rfl := Analysis.pure_eq_ok.mp h
    simp [get?_insert]

/-- The map kept after a list of entries: new entries for its keys, the old ones for all others. -/
theorem get?_foldlM_keep {f : κ → α → Analysis (Option β)} :
    ∀ {l : List (κ × α)}, (l.Pairwise fun a b => compare a.1 b.1 = .lt) →
      ∀ {kept kept' : FinMap κ β}, l.foldlM (keep f) kept = .ok kept' → ∀ k,
        match lookup k l with
        | none => kept'.get? k = kept.get? k
        | some v => ∃ r, f k v = .ok r ∧ kept'.get? k = r.or (kept.get? k)
  | [], _, kept, kept', h, k => by
    rw [List.foldlM_nil, Analysis.pure_eq_ok] at h
    rw [h]
    rfl
  | (k₀, v₀) :: rest, hl, kept, kept', h, k => by
    rw [List.foldlM_cons, Analysis.bind_eq_ok] at h
    obtain ⟨mid, hmid, h⟩ := h
    obtain ⟨r, hr, hget⟩ := get?_keep hmid
    obtain ⟨head, tail⟩ := List.pairwise_cons.mp hl
    have ih := get?_foldlM_keep tail h k
    by_cases hk : k = k₀
    · subst hk
      rw [lookup_eq_none head] at ih
      simp only [lookup, Std.ReflCmp.compare_self, if_true]
      exact ⟨r, hr, by rw [ih, hget k, if_pos rfl]⟩
    · have hmid : mid.get? k = kept.get? k := by rw [hget k, if_neg hk]
      rw [hmid] at ih
      simpa only [lookup, Std.LawfulEqOrd.compare_eq_iff_eq, if_neg hk] using ih

/-- **What a map built entry by entry holds**: the result for the entry of the key, if any. -/
theorem get?_filterMapM {f : κ → α → Analysis (Option β)} {m : FinMap κ α} {n : FinMap κ β}
    (h : m.filterMapM f = .ok n) (k : κ) :
    match m.get? k with
    | none => n.get? k = none
    | some v => f k v = .ok (n.get? k) := by
  have hk := get?_foldlM_keep m.ascending h k
  unfold get? at hk ⊢
  cases hm : lookup k m.entries with
  | none =>
    rw [hm] at hk
    exact hk
  | some v =>
    rw [hm] at hk
    obtain ⟨r, hr, hk⟩ := hk
    rw [show lookup k (empty : FinMap κ β).entries = none from rfl, Option.or_none] at hk
    rw [hk]
    exact hr

end AbstractDomains.FinMap
