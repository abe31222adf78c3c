import AbstractDomains.Error

/-!
# Outcomes of steps that can fail

How an analysis that succeeded got there: a sequence of steps succeeds iff each of them does, and
what every step of a fold preserves holds at its end. Steps any two of which can be swapped can be
taken in any order. `Analysis.Succeeds` says that there is a result.
-/

namespace AbstractDomains.Analysis

variable {α β : Type}

@[simp]
theorem bind_eq_ok {x : Analysis α} {f : α → Analysis β} {b : β} :
    x >>= f = .ok b ↔ ∃ a, x = .ok a ∧ f a = .ok b := by
  cases x with
  | error e => exact ⟨nofun, nofun⟩
  | ok a => exact ⟨fun h => ⟨a, rfl, h⟩, fun ⟨_, h, hb⟩ => Except.ok.inj h ▸ hb⟩

@[simp]
theorem pure_eq_ok {a b : α} : (pure a : Analysis α) = .ok b ↔ a = b :=
  ⟨Except.ok.inj, congrArg Except.ok⟩

/-- A fold whose steps keep `P` keeps `P`. -/
theorem foldlM_keeps {step : β → α → Analysis β} {P : β → Prop} {l : List α}
    (hstep : ∀ x ∈ l, ∀ b b', P b → step b x = .ok b' → P b') {b b' : β} (hb : P b)
    (h : l.foldlM step b = .ok b') : P b' := by
  induction l generalizing b with
  | nil => exact pure_eq_ok.mp h ▸ hb
  | cons x rest ih =>
    rw [List.foldlM_cons, bind_eq_ok] at h
    obtain ⟨c, hc, h⟩ := h
    exact ih (fun y hy => hstep y (List.mem_cons_of_mem x hy))
      (hstep x List.mem_cons_self b c hb hc) h

/-- A fold whose steps keep `P` reaches `P` as soon as one of its steps establishes it. -/
theorem foldlM_reaches {step : β → α → Analysis β} {P : β → Prop} {l : List α} {x : α}
    (hstep : ∀ y ∈ l, ∀ b b', P b → step b y = .ok b' → P b')
    (hx : x ∈ l) (hest : ∀ b b', step b x = .ok b' → P b') {b b' : β}
    (h : l.foldlM step b = .ok b') : P b' := by
  induction l generalizing b with
  | nil => exact absurd hx List.not_mem_nil
  | cons y rest ih =>
    rw [List.foldlM_cons, bind_eq_ok] at h
    obtain ⟨c, hc, h⟩ := h
    have hrest := fun z hz => hstep z (List.mem_cons_of_mem y hz)
    rcases List.mem_cons.mp hx with rfl | hx
    · exact foldlM_keeps hrest (hest b c hc) h
    · exact ih hrest hx h

/-! ## Success -/

/-- Whether an analysis has a result. -/
def Succeeds (x : Analysis α) : Prop :=
  ∃ a, x = .ok a

theorem succeeds_ok (a : α) : Succeeds (.ok a) :=
  ⟨a, rfl⟩

theorem Succeeds.bind {x : Analysis α} {f : α → Analysis β} (hx : x.Succeeds)
    (hf : ∀ a, (f a).Succeeds) : (x >>= f).Succeeds := by
  obtain ⟨a, rfl⟩ := hx
  exact hf a

/-- A fold whose steps all succeed succeeds. -/
theorem succeeds_foldlM {step : β → α → Analysis β} :
    ∀ {l : List α}, (∀ b, ∀ x ∈ l, (step b x).Succeeds) → ∀ b, (l.foldlM step b).Succeeds
  | [], _, b => succeeds_ok b
  | x :: rest, hstep, b => by
    rw [List.foldlM_cons]
    exact (hstep b x List.mem_cons_self).bind
      (succeeds_foldlM fun b y hy => hstep b y (List.mem_cons_of_mem x hy))

/-- A fold whose steps succeed and keep `P` has a result with `P`. -/
theorem exists_foldlM {step : β → α → Analysis β} {P : β → Prop} :
    ∀ {l : List α}, (∀ x ∈ l, ∀ b, P b → ∃ b', step b x = .ok b' ∧ P b') →
      ∀ {b}, P b → ∃ b', l.foldlM step b = .ok b' ∧ P b'
  | [], _, b, hb => ⟨b, rfl, hb⟩
  | x :: rest, hstep, b, hb => by
    obtain ⟨c, hc, hmem⟩ := hstep x List.mem_cons_self b hb
    obtain ⟨b', hb', hP⟩ := exists_foldlM (fun y hy => hstep y (List.mem_cons_of_mem x hy)) hmem
    refine ⟨b', ?_, hP⟩
    rw [List.foldlM_cons, hc]
    exact hb'

/-- **Steps can be taken in any order** if they keep `P` and any two of them can be swapped where
`P` holds. -/
theorem foldlM_perm {step : β → α → Analysis β} {P : β → Prop} {l l' : List α} (h : l.Perm l')
    (hstep : ∀ x ∈ l, ∀ b, P b → ∃ b', step b x = .ok b' ∧ P b')
    (hswap : ∀ x ∈ l, ∀ y ∈ l, ∀ b, P b →
      (do step (← step b x) y) = (do step (← step b y) x)) {b : β} (hb : P b) :
    l.foldlM step b = l'.foldlM step b := by
  induction h generalizing b with
  | nil => rfl
  | @cons x l₁ l₂ _ ih =>
    obtain ⟨c, hc, hmem⟩ := hstep x List.mem_cons_self b hb
    have hrest : l₁.foldlM step c = l₂.foldlM step c :=
      ih (fun y hy => hstep y (List.mem_cons_of_mem x hy))
        (fun y hy z hz => hswap y (List.mem_cons_of_mem x hy) z (List.mem_cons_of_mem x hz)) hmem
    rw [List.foldlM_cons, List.foldlM_cons, hc]
    exact hrest
  | swap x y rest =>
    have hpair : (do step (← step b y) x) = (do step (← step b x) y) :=
      hswap y List.mem_cons_self x (List.mem_cons_of_mem y List.mem_cons_self) b hb
    calc (y :: x :: rest).foldlM step b
        = (do step (← step b y) x) >>= rest.foldlM step := by simp
      _ = (do step (← step b x) y) >>= rest.foldlM step := by rw [hpair]
      _ = (x :: y :: rest).foldlM step b := by simp
  | trans h₁₂ _ ih₁ ih₂ =>
    have hmem : ∀ {x}, x ∈ _ → x ∈ _ := h₁₂.mem_iff.mpr
    rw [ih₁ hstep hswap hb]
    exact ih₂ (fun x hx => hstep x (hmem hx)) (fun x hx y hy => hswap x (hmem hx) y (hmem hy)) hb

/-- A test of all elements has an answer if the test of each has one, and holds if they all do. -/
theorem allM_spec (test : α → Analysis Bool) :
    ∀ {l : List α}, (∀ x ∈ l, (test x).Succeeds) →
      ∃ b, l.allM test = .ok b ∧ (b = true ↔ ∀ x ∈ l, test x = .ok true)
  | [], _ => ⟨true, rfl, by simp⟩
  | x :: rest, h => by
    obtain ⟨b, hb, hall⟩ := allM_spec test fun y hy => h y (List.mem_cons_of_mem x hy)
    obtain ⟨c, hc⟩ := h x List.mem_cons_self
    cases c with
    | false =>
      refine ⟨false, ?_, by simp [hc]⟩
      simp [List.allM, hc, bind, Except.bind, pure, Except.pure]
    | true =>
      refine ⟨b, ?_, by simp [hc, hall]⟩
      simp [List.allM, hc, hb, bind, Except.bind]

end AbstractDomains.Analysis
