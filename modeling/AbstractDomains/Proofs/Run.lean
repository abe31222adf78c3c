import AbstractDomains.Proofs.Environment
import AbstractDomains.Proofs.Numeric.Parities

/-!
# Runs of an analysis are sound

An analysis transforms an environment step by step: assignments, variables that change in an
unknown way, conditions, merges of control flow. `Command` is one such step, `Command.apply` what
it does to the environment, and `Command.Effect` what can happen to the store of the program
meanwhile.

Results:
* `Command.apply_describes`: one step keeps every store the program can be in.
* `run_sound`: so does a run, of any length, and what is then found about expressions is right.
-/

namespace AbstractDomains

/-- One step of an analysis. -/
inductive Command (α : Type) where
  | assign (id : Identifier) (e : Expr) (point : ProgramPoint)
  | forget (id : Identifier)
  | assume (e : Expr) (point : ProgramPoint)
  | join (other : Environment α)
  | widen (other : Environment α)
  | meet (other : Environment α)

section Domain

variable {α V : Type} [DecidableEq α] [ValueDomain α]

/-- What a step does to the environment. -/
def Command.apply (env : Environment α) : Command α → Analysis (Environment α)
  | assign id e point => env.assign id e point
  | forget id => .ok (Pointwise.forget env id)
  | assume e point => env.assume e point
  | join other => AbstractLattice.join env other
  | widen other => AbstractLattice.widen env other
  | meet other => AbstractLattice.meet env other

/-- The environment after a sequence of steps that all succeed. -/
def run (env : Environment α) (commands : List (Command α)) : Analysis (Environment α) :=
  commands.foldlM Command.apply env

end Domain

section Stores

variable {α V : Type} (S : Semantics V) (γ : α → V → Prop)

/-- What can happen to the store of the program in a step. Control also comes from the other
environment of a join or a widening, and a meet is with an environment that describes the store. -/
inductive Command.Effect : Command α → Store V → Store V → Prop
  | assign {id e point ρ} (v : V) : S.Evaluates ρ e v → Effect (.assign id e point) ρ (ρ.set id v)
  | forget {id ρ} (v : V) : Effect (.forget id) ρ (ρ.set id v)
  | assume {e point ρ} : S.Evaluates ρ e (S.ofBool true) → Effect (.assume e point) ρ ρ
  | join {other ρ ρ'} : ρ' = ρ ∨ other.Describes γ ρ' → Effect (.join other) ρ ρ'
  | widen {other ρ ρ'} : ρ' = ρ ∨ other.Describes γ ρ' → Effect (.widen other) ρ ρ'
  | meet {other ρ} : other.Describes γ ρ → Effect (.meet other) ρ ρ

/-- The stores of the program before and after a sequence of steps. -/
inductive Reaches : List (Command α) → Store V → Store V → Prop
  | nil {ρ} : Reaches [] ρ ρ
  | cons {c commands ρ ρ' ρ''} : Command.Effect S γ c ρ ρ' → Reaches commands ρ' ρ'' →
      Reaches (c :: commands) ρ ρ''

end Stores

variable {α V : Type} [DecidableEq α] [ValueDomain α] {S : Semantics V} {γ : α → V → Prop}
  {env env' : Environment α} {ρ ρ' : Store V}

/-- **One step keeps every store the program can be in.** -/
theorem Command.apply_describes (hD : DomainSound S γ) {c : Command α} (hρ : env.Describes γ ρ)
    (h : c.apply env = .ok env') (he : c.Effect S γ ρ ρ') : env'.Describes γ ρ' := by
  cases he with
  | assign v hv => exact Environment.describes_assign hD.toJoinSound hD.toEvalSound hρ hv h
  | forget v =>
    obtain rfl := Except.ok.inj h
    exact Environment.describes_forget hρ v
  | @assume e _ _ hv =>
    have hall : ∀ op ∈ e.deciders, True := fun _ _ => trivial
    exact Environment.describes_assume hD.toLatticeSound hD.toEvalSound hD.toAnswerSound hρ hall hv
      h
  | join ho =>
    refine Pointwise.describes_join hD.toJoinSound h (ho.imp_left ?_)
    rintro rfl
    exact hρ
  | widen ho =>
    refine Pointwise.describes_widen hD.toLatticeSound h (ho.imp_left ?_)
    rintro rfl
    exact hρ
  | meet ho => exact Pointwise.describes_meet hD.toLatticeSound h hρ ho

/-- **Runs are sound.** After any sequence of steps, the environment describes every store the
program can be in, and what is found about an expression is right in each of them. -/
theorem run_sound (hD : DomainSound S γ) {commands : List (Command α)} (hρ : env.Describes γ ρ)
    (h : run env commands = .ok env') (hr : Reaches S γ commands ρ ρ') :
    env'.Describes γ ρ' ∧
      (∀ e point a, env'.eval e point = .ok a → ∀ v, S.Evaluates ρ' e v → γ a v) ∧
      (∀ e point s, env'.satisfies e point = .ok s → ∀ v, S.Evaluates ρ' e v → S.Agrees s v) := by
  have hρ' : env'.Describes γ ρ' := by
    induction hr generalizing env with
    | nil => exact Analysis.pure_eq_ok.mp h ▸ hρ
    | cons hstep _ ih =>
      rw [run, List.foldlM_cons, Analysis.bind_eq_ok] at h
      obtain ⟨mid, hmid, h⟩ := h
      exact ih (Command.apply_describes hD hρ hmid hstep) h
  refine ⟨hρ', fun e point a ha v hv => ?_, fun e point s hs v hv => ?_⟩
  · exact Environment.eval_sound hD.toJoinSound hD.toEvalSound hρ' hv ha
  · have hall : ∀ op ∈ e.deciders, True := fun _ _ => trivial
    exact Environment.satisfies_sound hD.toJoinSound hD.toEvalSound hD.toAnswerSound hρ' hall hv hs

/-- Doubles `y` into `x` and learns that `z` has the same value. What is known of `y` is lost where a
branch is merged, and what is known of `z` in a loop, until it is known from elsewhere. -/
def doubleAndCompare : List (Command Parity) :=
  let number := TypeSet.single .numeric
  [.assign "x" (.binary .numericAdd (.var "y" number) (.var "y" number) number) ⟨"double"⟩,
   .forget "z",
   .assume (.binary .comparisonEq (.var "x" number) (.var "z" number) (.single .boolean)) ⟨"test"⟩,
   .join (.entries (.ofList [("x", .even), ("y", .even), ("z", .even)])),
   .widen (.entries (.ofList [("x", .even)])),
   .meet (.entries (.ofList [("z", .even)]))]

theorem run_sound_doubleAndCompare :
    let A := Arithmetic.integers (fun _ _ => none) (fun _ _ => none)
    let γ : Parity → Value Int → Prop := Parity.Contains isOddInt
    let before : Environment Parity := .entries (.ofList [("y", .odd)])
    let after : Environment Parity := .entries (.ofList [("x", .even), ("z", .even)])
    let ρ : Store (Value Int) := fun _ => .number 3
    let ρ' : Store (Value Int) := (ρ.set "x" (.number 6)).set "z" (.number 6)
    before.Describes γ ρ ∧ run before doubleAndCompare = .ok after ∧
      Reaches (A.semantics (.undefined Int)) γ doubleAndCompare ρ ρ' ∧ after.Describes γ ρ' := by
  intro A γ before after ρ ρ'
  have hD : DomainSound (A.semantics (.undefined Int)) γ :=
    Parity.domainSound (Arithmetic.integers_respectsParity _ _)
  have hρ : before.Describes γ ρ :=
    Pointwise.describes_ofList (List.forall_mem_singleton.mpr rfl)
  have hrun : run before doubleAndCompare = .ok after := rfl
  have hy : (A.semantics (.undefined Int)).Evaluates ρ (.var "y" (.single .numeric)) (.number 3) :=
    Arithmetic.evaluates_var rfl
  have hr : Reaches (A.semantics (.undefined Int)) γ doubleAndCompare ρ ρ' := by
    refine .cons (.assign (.number 6) ?_) (.cons (.forget (.number 6)) ?_)
    · exact .binary hy hy rfl (TypeSet.admits_single .numeric)
    refine .cons (.assume ?_) (.cons (.join (.inl rfl)) (.cons (.widen (.inl rfl))
      (.cons (.meet ?_) .nil)))
    · exact .binary (Arithmetic.evaluates_var (n := 6) rfl) (Arithmetic.evaluates_var rfl) rfl
        (TypeSet.admits_single .boolean)
    · exact Pointwise.describes_ofList (List.forall_mem_singleton.mpr rfl)
  exact ⟨hρ, hrun, hr, (run_sound hD hρ hrun hr).1⟩

end AbstractDomains
