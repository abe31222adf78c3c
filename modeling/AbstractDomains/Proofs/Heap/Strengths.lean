import Mathlib.Data.List.Induction
import AbstractDomains.Proofs.Heap.PointsTo

/-!
# Strengths after a run

A table is used by many callers, whose calls come in any order. What it holds at the end depends on
little of that order: a location is in the table iff some call resolved it, and it is weak iff some
call promoted it after it was resolved. Fields play no part, since they share the strength of their
location.

Results:
* `SiteTable.perform_cases`: what one call does to the strength of each location, or how it fails.
* `SiteTable.seen_iff`, `SiteTable.weak_iff`: the strengths after a run.
* `SiteTable.run_eq_iff`: when two runs end in the same table.
* `strengths_of_runs`: this for all runs, the calls that fail, and all orders of the calls.
-/

namespace AbstractDomains

/-! ## Calls -/

/-- A call that may change a table. -/
inductive SiteCall where
  | resolve (location : Location) (field : Option Expr)
  | promote (key : SiteKey)
  | resolveRevisited (location : Location) (field : Option Expr)
deriving DecidableEq

namespace SiteCall

/-- The key that a call names. -/
def key : SiteCall → SiteKey
  | resolve location field => ⟨location, field⟩
  | promote key => key
  | resolveRevisited location field => ⟨location, field⟩

/-- Whether a call puts its location into the table. -/
def resolves : SiteCall → Bool
  | promote _ => false
  | _ => true

/-- Whether a call makes its location weak. -/
def promotes : SiteCall → Bool
  | resolve _ _ => false
  | _ => true

end SiteCall

namespace SiteTable

open Analysis (Succeeds)

variable {table : SiteTable} {c : SiteCall} {calls calls' : List SiteCall} {l l' : Location}
  {key : SiteKey} {field : Option Expr}

/-- The table after a call, or its error. -/
def perform (table : SiteTable) : SiteCall → Analysis SiteTable
  | .resolve location field => .ok (table.resolve location field).1
  | .promote key => table.promote key
  | .resolveRevisited location field => do return (← table.resolveRevisited location field).1

/-- The table that the next caller finds. A call that fails leaves it as it is. -/
def after (table : SiteTable) (c : SiteCall) : SiteTable :=
  match table.perform c with
  | .ok table' => table'
  | .error _ => table

/-- The table after calls one after the other, empty at first. -/
def run (calls : List SiteCall) : SiteTable :=
  calls.foldl after .empty

/-- Whether a location has a strength. -/
def Seen (table : SiteTable) (l : Location) : Prop :=
  ∃ strength, table.strength? l = some strength

/-! ## One call -/

theorem not_seen_iff : ¬ table.Seen l ↔ table.strength? l = none := by
  unfold Seen
  cases table.strength? l <;> simp

theorem strength?_register (table : SiteTable) (l l' : Location) :
    (table.register l).strength? l' =
      if l' = l then some ((table.strength? l).getD .strong) else table.strength? l' := by
  cases hs : table.strength? l with
  | none =>
    unfold register
    rw [hs]
    exact FinMap.get?_insert table.strengths l l' .strong
  | some strength =>
    rw [register_of_seen hs]
    split
    · next h => rw [h, hs, Option.getD_some]
    · rfl

theorem strength?_promote (table : SiteTable) (l l' : Location) :
    (⟨table.strengths.insert l .weak⟩ : SiteTable).strength? l' =
      if l' = l then some .weak else table.strength? l' :=
  FinMap.get?_insert table.strengths l l' .weak

/-- A location can be promoted right after it is resolved. -/
theorem perform_resolveRevisited :
    table.perform (.resolveRevisited l field) =
      .ok ⟨(table.register l).strengths.insert l .weak⟩ := by
  have hseen : (table.register l).strength? l = some ((table.strength? l).getD .strong) := by
    rw [strength?_register, if_pos rfl]
  have hpromote : (table.register l).promote ⟨l, field⟩ =
      .ok ⟨(table.register l).strengths.insert l .weak⟩ := promote_of_seen hseen
  simp only [perform, resolveRevisited, resolve, hpromote]
  rfl

/-- The strengths after a call that succeeds: the location that it names is weak if it promotes it,
and strong if it is new. All others are as before. -/
def Updated (table : SiteTable) (c : SiteCall) (table' : SiteTable) : Prop :=
  ∀ l, table'.strength? l =
    if l = c.key.location then
      some (if c.promotes = true then .weak else (table.strength? l).getD .strong)
    else table.strength? l

/-- **What a call can do.** Only promotions fail, namely of locations that have not been seen. -/
theorem perform_cases (table : SiteTable) (c : SiteCall) :
    (∃ key, c = .promote key ∧ ¬ table.Seen key.location ∧
      table.perform c = .error (.unknownSite key)) ∨
    ((c.resolves = true ∨ table.Seen c.key.location) ∧
      ∃ table', table.perform c = .ok table' ∧ table.Updated c table') := by
  cases c with
  | resolve l field =>
    refine .inr ⟨.inl rfl, _, rfl, fun l' => ?_⟩
    rw [show (table.resolve l field).1 = table.register l from rfl, strength?_register]
    by_cases hl : l' = l <;> simp [SiteCall.key, SiteCall.promotes, hl]
  | promote key =>
    by_cases hseen : table.Seen key.location
    · obtain ⟨strength, hs⟩ := hseen
      exact .inr ⟨.inr ⟨strength, hs⟩, _, promote_of_seen hs, strength?_promote table key.location⟩
    · refine .inl ⟨key, rfl, hseen, ?_⟩
      simp only [perform, promote, not_seen_iff.mp hseen]
  | resolveRevisited l field =>
    refine .inr ⟨.inl rfl, _, perform_resolveRevisited, fun l' => ?_⟩
    rw [strength?_promote, strength?_register]
    by_cases hl : l' = l <;> simp [SiteCall.key, SiteCall.promotes, hl]

/-- **The only call that fails** is the promotion of a location that has not been seen. -/
theorem perform_eq_error_iff {e : AnalysisError} : table.perform c = .error e ↔
    ∃ key, c = .promote key ∧ e = .unknownSite key ∧ ¬ table.Seen key.location := by
  rcases table.perform_cases c with ⟨key, rfl, hnew, hperform⟩ | ⟨hcan, table', hperform, -⟩
  · rw [hperform]
    constructor
    · intro h
      exact ⟨key, rfl, (Except.error.inj h).symm, hnew⟩
    · rintro ⟨_, ⟨⟩, rfl, -⟩
      rfl
  · rw [hperform]
    constructor
    · simp
    · rintro ⟨key, rfl, -, hnew⟩
      exact absurd hcan (not_or.mpr ⟨Bool.false_ne_true, hnew⟩)

theorem perform_succeeds_iff :
    (table.perform c).Succeeds ↔ c.resolves = true ∨ table.Seen c.key.location := by
  rcases table.perform_cases c with ⟨key, rfl, hnew, hperform⟩ | ⟨hcan, table', hperform, -⟩
  · rw [hperform]
    constructor
    · rintro ⟨_, ⟨⟩⟩
    · intro hcan
      exact absurd hcan (not_or.mpr ⟨Bool.false_ne_true, hnew⟩)
  · exact ⟨fun _ => hcan, fun _ => ⟨table', hperform⟩⟩

theorem after_of_error {e : AnalysisError} (h : table.perform c = .error e) :
    table.after c = table := by
  unfold after
  rw [h]

theorem after_updated (h : (table.perform c).Succeeds) : table.Updated c (table.after c) := by
  rcases table.perform_cases c with ⟨key, rfl, -, hperform⟩ | ⟨-, table', hperform, hupdated⟩
  · obtain ⟨_, h⟩ := h
    exact absurd (h.symm.trans hperform) (by simp)
  · unfold after
    rw [hperform]
    exact hupdated

/-- A location is seen after a call if it was before, or if the call resolves it. -/
theorem seen_after_iff :
    (table.after c).Seen l ↔ table.Seen l ∨ (c.resolves = true ∧ c.key.location = l) := by
  rcases table.perform_cases c with ⟨key, rfl, -, hperform⟩ | ⟨hcan, table', hperform, -⟩
  · rw [after_of_error hperform]
    simp [SiteCall.resolves]
  · -- a location that gets a strength is the one named, which was seen or is resolved
    have hs := after_updated ⟨table', hperform⟩ l
    unfold Seen at hcan ⊢
    rw [hs]
    by_cases hl : l = c.key.location
    · subst hl
      simpa [or_comm] using hcan
    · simp [hl, Ne.symm hl]

/-- A location is weak after a call if it was before, or if the call manages to promote it. -/
theorem weak_after_iff : (table.after c).strength? l = some .weak ↔
    table.strength? l = some .weak ∨
      (c.promotes = true ∧ c.key.location = l ∧ (table.perform c).Succeeds) := by
  rcases table.perform_cases c with ⟨key, rfl, -, hperform⟩ | ⟨-, table', hperform, -⟩
  · rw [after_of_error hperform, hperform]
    simp [Succeeds]
  · have hsucceeds : (table.perform c).Succeeds := ⟨table', hperform⟩
    rw [after_updated hsucceeds l]
    by_cases hl : l = c.key.location
    · subst hl
      cases hs : table.strength? c.key.location <;> cases c.promotes <;> simp [hsucceeds]
    · simp [hl, Ne.symm hl]

/-! ## Runs -/

theorem run_concat : run (calls ++ [c]) = (run calls).after c := by
  unfold run
  rw [List.foldl_append]
  rfl

/-- Some call resolved the location. -/
def Resolved (calls : List SiteCall) (l : Location) : Prop :=
  ∃ c ∈ calls, c.resolves = true ∧ c.key.location = l

/-- Some call promoted a key of the location, and did not fail where it came in the run. -/
def Promoted (calls : List SiteCall) (l : Location) : Prop :=
  ∃ before c, before ++ [c] <+: calls ∧ c.promotes = true ∧ c.key.location = l ∧
    ((run before).perform c).Succeeds

/-- Calls that only promote come after one that resolves their location, if any call does. -/
def Ordered (calls : List SiteCall) : Prop :=
  ∀ i, ∀ h : i < calls.length, calls[i].resolves = false →
    Resolved calls calls[i].key.location → Resolved (calls.take i) calls[i].key.location

instance : Decidable (Resolved calls l) :=
  inferInstanceAs (Decidable (∃ c ∈ calls, c.resolves = true ∧ c.key.location = l))

instance : Decidable (Ordered calls) :=
  inferInstanceAs (Decidable (∀ i, ∀ h : i < calls.length, calls[i].resolves = false →
    Resolved calls calls[i].key.location → Resolved (calls.take i) calls[i].key.location))

theorem resolved_concat :
    Resolved (calls ++ [c]) l ↔ Resolved calls l ∨ (c.resolves = true ∧ c.key.location = l) := by
  simp [Resolved, or_and_right, exists_or]

theorem promoted_concat : Promoted (calls ++ [c]) l ↔ Promoted calls l ∨
    (c.promotes = true ∧ c.key.location = l ∧ ((run calls).perform c).Succeeds) := by
  unfold Promoted
  simp only [List.prefix_concat_iff]
  constructor
  · rintro ⟨before, c', heq | hprefix, hc'⟩
    · obtain ⟨rfl, rfl⟩ := List.append_singleton_inj.mp heq
      exact .inr hc'
    · exact .inl ⟨before, c', hprefix, hc'⟩
  · rintro (⟨before, c', hprefix, hc'⟩ | hc)
    · exact ⟨before, c', .inr hprefix, hc'⟩
    · exact ⟨calls, c, .inl rfl, hc⟩

-- Both by induction from the end of the run, since whether a call succeeds depends on those before.

/-- **A location has a strength iff some call resolved it.** -/
theorem seen_iff : (run calls).Seen l ↔ Resolved calls l := by
  induction calls using List.reverseRecOn with
  | nil => simp [run, Seen, Resolved, strength?, empty]
  | append_singleton calls c ih => rw [run_concat, seen_after_iff, resolved_concat, ih]

/-- **A location is weak iff some call promoted it** without failing. -/
theorem weak_iff : (run calls).strength? l = some .weak ↔ Promoted calls l := by
  induction calls using List.reverseRecOn with
  | nil => simp [run, Promoted, strength?, empty]
  | append_singleton calls c ih => rw [run_concat, weak_after_iff, promoted_concat, ih]

/-- What has been promoted stays so, whatever is called next. -/
theorem Promoted.append (h : Promoted calls l) (more : List SiteCall) :
    Promoted (calls ++ more) l := by
  obtain ⟨before, c, hprefix, hc⟩ := h
  exact ⟨before, c, hprefix.trans (List.prefix_append calls more), hc⟩

/-! ## Orders of the calls -/

/-- **Two runs end in the same table** iff they resolved the same locations and promoted the same. -/
theorem run_eq_iff : run calls = run calls' ↔
    (∀ l, Resolved calls l ↔ Resolved calls' l) ∧ ∀ l, Promoted calls l ↔ Promoted calls' l := by
  simp only [← seen_iff, ← weak_iff]
  constructor
  · intro h
    simp [h]
  · rintro ⟨hseen, hweak⟩
    -- a strength is told by whether there is one and whether it is weak
    refine congrArg SiteTable.mk (FinMap.ext_get? fun l => ?_)
    change (run calls).strength? l = (run calls').strength? l
    have hseen := hseen l
    have hweak := hweak l
    unfold Seen at hseen
    rcases hs : (run calls).strength? l with _ | _ | _ <;>
      rcases hs' : (run calls').strength? l with _ | _ | _ <;> simp_all

theorem Resolved.perm (h : calls.Perm calls') : Resolved calls l ↔ Resolved calls' l := by
  unfold Resolved
  simp only [h.mem_iff]

/-- Where promotions come in order, no promotion of a location that is resolved fails. -/
theorem promoted_iff_of_ordered (h : Ordered calls) : Promoted calls l ↔
    Resolved calls l ∧ ∃ c ∈ calls, c.promotes = true ∧ c.key.location = l := by
  constructor
  · intro hpromoted
    refine ⟨?_, ?_⟩
    · rw [← weak_iff] at hpromoted
      exact seen_iff.mp ⟨.weak, hpromoted⟩
    · obtain ⟨before, c, hprefix, hc, hl, -⟩ := hpromoted
      exact ⟨c, hprefix.subset (by simp), hc, hl⟩
  · rintro ⟨hresolved, c, hmem, hc, rfl⟩
    obtain ⟨i, hi, rfl⟩ := List.mem_iff_getElem.mp hmem
    refine ⟨calls.take i, calls[i], ?_, hc, rfl, perform_succeeds_iff.mpr ?_⟩
    · rw [List.take_append_getElem]
      exact List.take_prefix (i + 1) calls
    · -- the call resolves its location itself, or comes after one that does
      by_cases hresolves : calls[i].resolves = true
      · exact .inl hresolves
      · exact .inr (seen_iff.mpr (h i hi (Bool.eq_false_iff.mpr hresolves) hresolved))

theorem run_eq_of_perm (h : calls.Perm calls') (hcalls : Ordered calls) (hcalls' : Ordered calls') :
    run calls = run calls' := by
  refine run_eq_iff.mpr ⟨fun l => Resolved.perm h, fun l => ?_⟩
  rw [promoted_iff_of_ordered hcalls, promoted_iff_of_ordered hcalls', Resolved.perm h]
  simp only [h.mem_iff]

end SiteTable

open SiteTable in
/-- **Strengths after a run.** Whatever is called on a table that is empty at first, a location has
a strength iff some call resolved it, and is weak iff some call promoted a key of it without
failing, which it stays. A call fails iff it promotes a key whose location no call resolved before,
with an error that names the key and the table unchanged. The same calls in another order end in the
same table iff the same locations are promoted, so they do where promotions come after a call that
resolved their location. -/
theorem strengths_of_runs (calls : List SiteCall) :
    (∀ l, (∃ strength, (run calls).strength? l = some strength) ↔ Resolved calls l) ∧
    (∀ l, (run calls).strength? l = some .weak ↔ Promoted calls l) ∧
    (∀ l more, (run calls).strength? l = some .weak →
      (run (calls ++ more)).strength? l = some .weak) ∧
    (∀ c e, (run calls).perform c = .error e ↔
      ∃ key, c = .promote key ∧ e = .unknownSite key ∧ ¬ Resolved calls key.location) ∧
    (∀ c e, (run calls).perform c = .error e → run (calls ++ [c]) = run calls) ∧
    ∀ calls', calls.Perm calls' →
      (run calls = run calls' ↔ ∀ l, Promoted calls l ↔ Promoted calls' l) ∧
      (Ordered calls → Ordered calls' → run calls = run calls') := by
  refine ⟨fun l => seen_iff, fun l => weak_iff, fun l more hweak => ?_, fun c e => ?_,
    fun c e herror => ?_, fun calls' hperm => ⟨?_, run_eq_of_perm hperm⟩⟩
  · exact weak_iff.mpr ((weak_iff.mp hweak).append more)
  · simp only [← seen_iff]
    exact perform_eq_error_iff
  · rw [run_concat, after_of_error herror]
  · rw [run_eq_iff]
    exact and_iff_right fun l => Resolved.perm hperm

open SiteTable in
/-- A node is promoted through the key of its field, and what is allocated nowhere cannot be, in one
order of the calls and in another. -/
theorem strengths_of_runs_reordered :
    let next : SiteKey := ⟨"node", some (.constant (.str "next") .empty)⟩
    let nowhere : SiteKey := ⟨"nowhere", none⟩
    let calls : List SiteCall :=
      [.resolve "node" none, .promote next, .promote nowhere, .resolveRevisited "loop" none]
    let calls' : List SiteCall :=
      [.promote nowhere, .resolveRevisited "loop" none, .resolve "node" none, .promote next]
    Promoted calls "node" ∧ ¬ Resolved calls "nowhere" ∧
      (run calls).perform (.promote nowhere) = .error (.unknownSite nowhere) ∧
      run (calls ++ [.promote nowhere]) = run calls ∧
      (run (calls ++ [.resolve "node" none])).strength? "node" = some .weak ∧
      calls.Perm calls' ∧ Ordered calls ∧ Ordered calls' ∧ run calls = run calls' := by
  intro next nowhere calls calls'
  obtain ⟨-, hweak, hstays, hfails, hunchanged, hreorder⟩ := strengths_of_runs calls
  have hnode : (run calls).strength? "node" = some .weak := by decide
  have hnowhere : ¬ Resolved calls "nowhere" := by decide
  have herror := (hfails (.promote nowhere) (.unknownSite nowhere)).mpr ⟨nowhere, rfl, rfl, hnowhere⟩
  have hperm : calls.Perm calls' := by decide
  have hordered : Ordered calls := by decide
  have hordered' : Ordered calls' := by decide
  exact ⟨(hweak "node").mp hnode, hnowhere, herror, hunchanged _ _ herror,
    hstays "node" [.resolve "node" none] hnode, hperm, hordered, hordered',
    (hreorder calls' hperm).2 hordered hordered'⟩

/-- A promotion that comes too early is lost. -/
example : SiteTable.run [.promote ⟨"node", none⟩, .resolve "node" none] ≠
    SiteTable.run [.resolve "node" none, .promote ⟨"node", none⟩] := by decide

end AbstractDomains
