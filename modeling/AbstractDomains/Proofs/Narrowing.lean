import AbstractDomains.Proofs.PointwiseLattice

/-!
# Narrowing of environments and memories

Environments and memories have no narrowing of their own: they meet instead. A domain can narrow in
another way than it meets, as products do if their components do, and then the values of two states
are not narrowed one by one.

Results:
* `Pointwise.meet_inv`, `Pointwise.meet_succeeds`: a meet of states under all keys, those included
  that are not in both maps.
* `environments_and_memories_narrow_pointwise_iff`: when narrowing goes key by key.
* `KnownPrefix.not_narrowsPointwise`: a domain over which it does not.
-/

namespace AbstractDomains

open AbstractLattice (downward)
open Analysis (Succeeds succeeds_ok)

section Values

variable {α : Type} [DecidableEq α] [AbstractLattice α]

theorem downward_top (htop : isTop (top : α) = true) (proper : α → α → Analysis α) (a : α) :
    downward proper a top = .ok a := by
  simp [downward, htop]

theorem top_downward (htop : isTop (top : α) = true) (hproper : isBottom (top : α) = false)
    (proper : α → α → Analysis α) {a : α} (ha : isTop a = false ∨ a = top) :
    downward proper top a = .ok a := by
  rcases ha with ha | rfl
  · by_cases heq : top = a
    · simp [downward, heq]
    · simp [downward, ha, hproper, heq, htop]
  · exact downward_top htop proper top

end Values

namespace Pointwise

variable {κ α : Type} [Ord κ] [DecidableEq α] [AbstractLattice α] {m n : FinMap κ α} {k : κ} {w : α}

/-- The values of a map are neither top nor bottom. -/
def StoresProper (s : Pointwise κ α) : Prop :=
  ∀ k v, s.get? k = some v → isTop v = false ∧ isBottom v = false

/-- A key without a value reads as top, and nothing else that is read counts as top. -/
theorem StoresProper.isTop_read (hs : StoresProper (entries m)) (k : κ) :
    isTop (read (entries m) k) = false ∨ read (entries m) k = top := by
  cases hk : m.get? k with
  | none => exact .inr (read_of_get?_eq_none hk)
  | some v =>
    rw [read_of_get?_eq_some hk]
    exact .inl (hs k v hk).1

theorem meetEntry_eq_meet (htop : isTop (top : α) = true) (hproper : isBottom (top : α) = false)
    (hw : isTop w = false) : meetEntry (m.get? k) w = meet (read (entries m) k) w := by
  cases hk : m.get? k with
  | none =>
    rw [read_of_get?_eq_none hk]
    exact (top_downward htop hproper _ (.inl hw)).symm
  | some v =>
    rw [read_of_get?_eq_some hk]
    rfl

variable [DecidableEq κ] [Std.TransOrd κ] {s t u : Pointwise κ α}

/-- Two states whose readings can be narrowed, and leave something under each key. -/
structure Narrowable (s t : Pointwise κ α) : Prop where
  left_ne_bottom : s ≠ bottom
  right_ne_bottom : t ≠ bottom
  left_proper : s.StoresProper
  right_proper : t.StoresProper
  narrows : ∀ k, ∃ c, narrow (s.read k) (t.read k) = .ok c ∧ isBottom c = false

/-- There is a narrowed state, and it reads as the narrowed readings. -/
def NarrowsPointwise (s t : Pointwise κ α) : Prop :=
  ∃ u, narrow s t = .ok u ∧ u ≠ bottom ∧ ∀ k, narrow (s.read k) (t.read k) = .ok (u.read k)

variable [Std.LawfulEqOrd κ]

theorem storesProper_ofList {es : List (κ × α)}
    (h : ∀ e ∈ es, isTop e.2 = false ∧ isBottom e.2 = false) :
    StoresProper (entries (.ofList es)) :=
  fun k v hk => h (k, v) (FinMap.mem_of_get?_ofList hk)

theorem read_ofList_eq_top {es : List (κ × α)} (h : ∀ e ∈ es, e.1 ≠ k) :
    read (entries (.ofList es)) k = top := by
  cases hk : (FinMap.ofList es).get? k with
  | none => exact read_of_get?_eq_none hk
  | some v => exact absurd rfl (h (k, v) (FinMap.mem_of_get?_ofList hk))

/-! ## Meets under all keys -/

/-- A state that counts as top has no values. -/
theorem StoresProper.read_of_isTop (hs : s.StoresProper) (htop : isTop s = true) (k : κ) :
    s.read k = top := by
  cases s with
  | bottom => exact absurd htop Bool.false_ne_true
  | entries m =>
    cases hk : m.get? k with
    | none => exact read_of_get?_eq_none hk
    | some v =>
      have hmem : v ∈ m.values := List.mem_map.mpr ⟨(k, v), FinMap.mem_entries_iff.mpr hk, rfl⟩
      have hv : isTop v = true := List.all_eq_true.mp htop v hmem
      exact absurd hv (by simp [(hs k v hk).1])

section Meets

variable (htop : isTop (top : α) = true) (hproper : isBottom (top : α) = false)
include htop hproper

/-- A meet is bottom under some key, or it is the meet under each of them. -/
theorem meet_inv (hs : StoresProper (entries m)) (ht : StoresProper (entries n))
    (h : meet (entries m) (entries n) = .ok u) :
    (u = bottom ∧ ∃ k x, meet (read (entries m) k) (read (entries n) k) = .ok x ∧
      isBottom x = true) ∨
    u ≠ bottom ∧ ∀ k, meet (read (entries m) k) (read (entries n) k) = .ok (u.read k) := by
  rcases downward_inv h with ⟨rfl, hn | hm | heq⟩ | ⟨rfl, hm | hn⟩ | ⟨-, hmeet⟩
  · refine .inr ⟨entries_ne_bottom m, fun k => ?_⟩
    rw [ht.read_of_isTop hn]
    exact downward_top htop _ _
  · exact absurd (isBottom_iff.mp hm) (entries_ne_bottom m)
  · refine .inr ⟨entries_ne_bottom m, fun k => ?_⟩
    rw [← heq]
    exact meet_self _
  · refine .inr ⟨entries_ne_bottom n, fun k => ?_⟩
    rw [hs.read_of_isTop hm]
    exact top_downward htop hproper _ (ht.isTop_read k)
  · exact absurd (isBottom_iff.mp hn) (entries_ne_bottom n)
  · rcases meetProper_inv hmeet with ⟨rfl, k, w, x, hn, hx, hxb⟩ | ⟨l, rfl, hl⟩
    · refine .inl ⟨rfl, k, x, ?_, hxb⟩
      rw [read_of_get?_eq_some hn, ← meetEntry_eq_meet htop hproper (ht k w hn).1]
      exact hx
    · refine .inr ⟨entries_ne_bottom l, fun k => ?_⟩
      cases hn : n.get? k with
      | none =>
        have hlk : read (entries l) k = read (entries m) k := by
          simp [read, hl.of_none hn]
        rw [read_of_get?_eq_none hn, hlk]
        exact downward_top htop _ _
      | some w =>
        obtain ⟨x, hx, -, hlk⟩ := hl.of_some hn
        rw [read_of_get?_eq_some hn, read_of_get?_eq_some hlk, ← hx]
        exact (meetEntry_eq_meet htop hproper (ht k w hn).1).symm

theorem meet_succeeds (ht : StoresProper (entries n))
    (h : ∀ k, (meet (read (entries m) k) (read (entries n) k)).Succeeds) :
    (meet (entries m) (entries n)).Succeeds := by
  rcases downward_cases AbstractLattice.meetProper (entries m) (entries n) with
    ⟨hu, -⟩ | ⟨hu, -⟩ | ⟨-, hu⟩
  · exact ⟨_, hu⟩
  · exact ⟨_, hu⟩
  · show Succeeds (downward _ _ _)
    rw [hu]
    refine meetProper_succeeds fun {k w} hn => ?_
    rw [meetEntry_eq_meet htop hproper (ht k w hn).1]
    exact read_of_get?_eq_some hn ▸ h k

/-- **Narrowing goes key by key** iff no reading is narrowed to something else than the meet. -/
theorem narrowsPointwise_iff (h : Narrowable s t) :
    NarrowsPointwise s t ↔
      ∀ k, meet (s.read k) (t.read k) = narrow (s.read k) (t.read k) := by
  obtain ⟨hs, ht, hsproper, htproper, hnarrows⟩ := h
  cases s with
  | bottom => exact absurd rfl hs
  | entries m =>
    cases t with
    | bottom => exact absurd rfl ht
    | entries n =>
      constructor
      · rintro ⟨u, hu, hne, hreads⟩ k
        -- a state is narrowed by meeting it
        rcases meet_inv htop hproper hsproper htproper hu with ⟨rfl, -⟩ | ⟨-, hmeets⟩
        · exact absurd rfl hne
        · rw [hmeets k, hreads k]
      · intro hsame
        have hmeets : ∀ k, (meet (read (entries m) k) (read (entries n) k)).Succeeds := by
          intro k
          obtain ⟨c, hc, -⟩ := hnarrows k
          exact ⟨c, (hsame k).trans hc⟩
        obtain ⟨u, hu⟩ := meet_succeeds htop hproper htproper hmeets
        rcases meet_inv htop hproper hsproper htproper hu with ⟨-, k, x, hx, hxb⟩ | ⟨hne, hreads⟩
        · obtain ⟨c, hc, hcb⟩ := hnarrows k
          obtain rfl : x = c := Except.ok.inj (hx.symm.trans ((hsame k).trans hc))
          exact absurd hxb (by simp [hcb])
        · exact ⟨u, hu, hne, fun k => (hsame k).symm.trans (hreads k)⟩

end Meets

end Pointwise

open AbstractDomains.Pointwise (Narrowable NarrowsPointwise)

/-- **When narrowing is pointwise.** Environments and memories that store neither top nor bottom,
and whose readings narrow to something under each key, are narrowed to a state that reads as the
narrowed readings iff the domain narrows each two of them to their meet. -/
theorem environments_and_memories_narrow_pointwise_iff {α : Type} [DecidableEq α]
    [AbstractLattice α] (htop : isTop (top : α) = true) (hproper : isBottom (top : α) = false) :
    (∀ a b : Environment α, Narrowable a b → (NarrowsPointwise a b ↔
      ∀ id, meet (a.read id) (b.read id) = narrow (a.read id) (b.read id))) ∧
    ∀ a b : Memory α, Narrowable a b → (NarrowsPointwise a b ↔
      ∀ key, meet (a.read key) (b.read key) = narrow (a.read key) (b.read key)) :=
  ⟨fun _ _ h => Pointwise.narrowsPointwise_iff htop hproper h,
    fun _ _ h => Pointwise.narrowsPointwise_iff htop hproper h⟩

/-- Signs are narrowed to their meet; nothing is known of `y` in the second environment. -/
theorem environments_and_memories_narrow_pointwise_of_signs :
    let a : Environment Sign := .entries (.ofList [("x", .zeroPlus), ("y", .minus)])
    let b : Environment Sign := .entries (.ofList [("x", .zeroMinus)])
    Narrowable a b ∧ NarrowsPointwise a b := by
  intro a b
  have hreads : ∀ id, narrow (a.read id) (b.read id) =
      .ok (if id = "x" then .zero else if id = "y" then .minus else .top) := by
    intro id
    by_cases hx : id = "x"
    · subst hx
      rfl
    · by_cases hy : id = "y"
      · subst hy
        rfl
      · have ha : a.read id = top := Pointwise.read_ofList_eq_top (by simp [Ne.symm hx, Ne.symm hy])
        have hb : b.read id = top := Pointwise.read_ofList_eq_top (by simp [Ne.symm hx])
        rw [ha, hb, if_neg hx, if_neg hy]
        rfl
  have h : Narrowable a b := by
    refine ⟨Pointwise.entries_ne_bottom _, Pointwise.entries_ne_bottom _,
      Pointwise.storesProper_ofList (by decide), Pointwise.storesProper_ofList (by decide),
      fun id => ⟨_, hreads id, ?_⟩⟩
    split
    · rfl
    · split <;> rfl
  have hiff := (environments_and_memories_narrow_pointwise_iff (α := Sign) rfl rfl).1 a b h
  exact ⟨h, hiff.mpr fun _ => rfl⟩

/-! ## A narrowing that is not the meet -/

/-- What a text starts with, if there can be one. -/
inductive KnownPrefix where
  | bottom
  | starts (text : List Char)
  deriving DecidableEq

namespace KnownPrefix

/-- What both texts start with. -/
def common : List Char → List Char → List Char
  | a :: as, b :: bs => if a = b then a :: common as bs else []
  | _, _ => []

/-- Whether the second one is known to be the start of the first one. -/
def below : KnownPrefix → KnownPrefix → Bool
  | bottom, _ => true
  | starts _, bottom => false
  | starts text, starts start => start.isPrefixOf text

/-- Narrowing stops at once: it keeps what is known already. -/
instance : AbstractLattice KnownPrefix where
  top := starts []
  bottom := bottom
  joinProper
    | starts a, starts b => .ok (starts (common a b))
    | bottom, b => .ok b
    | a, bottom => .ok a
  meetProper a b := .ok (if a.below b then a else if b.below a then b else bottom)
  narrowProper a _ := .ok a
  leqProper a b := .ok (a.below b)

/-- The second environment knows more of `x`, and meeting it gains what narrowing leaves out. -/
theorem not_narrowsPointwise :
    let a : Environment KnownPrefix := .entries (.ofList [("x", .starts ['a'])])
    let b : Environment KnownPrefix := .entries (.ofList [("x", .starts ['a', 'b'])])
    Narrowable a b ∧ narrow (a.read "x") (b.read "x") = .ok (.starts ['a']) ∧
      narrow a b = .ok b ∧ ¬ NarrowsPointwise a b := by
  intro a b
  have hreads : ∀ id, narrow (a.read id) (b.read id) =
      .ok (if id = "x" then .starts ['a'] else top) := by
    intro id
    by_cases hx : id = "x"
    · subst hx
      rfl
    · have ha : a.read id = top := Pointwise.read_ofList_eq_top (by simp [Ne.symm hx])
      have hb : b.read id = top := Pointwise.read_ofList_eq_top (by simp [Ne.symm hx])
      rw [ha, hb, if_neg hx]
      rfl
  have hnarrow : narrow a b = .ok b := rfl
  refine ⟨⟨Pointwise.entries_ne_bottom _, Pointwise.entries_ne_bottom _,
    Pointwise.storesProper_ofList (by decide), Pointwise.storesProper_ofList (by decide),
    fun id => ⟨_, hreads id, ?_⟩⟩, hreads "x", hnarrow, ?_⟩
  · split <;> rfl
  · rintro ⟨u, hu, -, hpointwise⟩
    obtain rfl : b = u := Except.ok.inj (hnarrow.symm.trans hu)
    have hsame : KnownPrefix.starts ['a'] = .starts ['a', 'b'] :=
      Except.ok.inj ((hreads "x").symm.trans (hpointwise "x"))
    exact absurd hsame (by decide)

end KnownPrefix

end AbstractDomains
