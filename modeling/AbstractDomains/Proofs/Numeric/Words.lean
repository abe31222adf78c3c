import AbstractDomains.Proofs.Numeric.Parities

/-!
# Parities of machine words

`Arithmetic.words` are the operations on 64-bit words in two's complement, which wrap around. Its
numbers are not those of exact integers, but their parities are: wrapping around changes a number by
a multiple of 2⁶⁴.

Results:
* `Arithmetic.words_respectsParity`: words have the parities of exact integers.
* `Parity.right_for_integers_and_words`: one domain of parities serves both arithmetics.
-/

namespace AbstractDomains

/-- 64-bit words that wrap around, with any partial functions as quotient and remainder. -/
def Arithmetic.words (div rem : Int64 → Int64 → Option Int64) : Arithmetic Int64 where
  literal n := n
  neg a := -a
  add a b := a + b
  sub a b := a - b
  mul a b := a * b
  div := div
  rem := rem
  lt a b := a < b
  le a b := a ≤ b

/-- Whether a word is odd. -/
def isOddWord (a : Int64) : Bool :=
  isOddInt a.toInt

/-- Wrapping around at an even number keeps the parity of a number. -/
theorem isOddInt_bmod {m : Nat} (hm : 2 ∣ m) (n : Int) : isOddInt (n.bmod m) = isOddInt n := by
  have hdvd : (2 : Int) ∣ m := Int.natCast_dvd_natCast.mpr hm
  have h : n.bmod m % 2 = n % 2 := by
    rw [← Int.emod_emod_of_dvd (n.bmod m) hdvd, Int.bmod_emod, Int.emod_emod_of_dvd n hdvd]
  unfold isOddInt
  rw [h]

/-- **Words respect parity**, whatever their quotients and remainders are. -/
theorem Arithmetic.words_respectsParity (div rem : Int64 → Int64 → Option Int64) :
    (words div rem).RespectsParity isOddWord where
  literal _ := rfl
  neg a := by
    show isOddInt (-a).toInt = isOddInt a.toInt
    rw [Int64.toInt_neg, isOddInt_bmod (Nat.dvd_of_mod_eq_zero rfl), isOddInt_neg]
  add a b := by
    show isOddInt (a + b).toInt = _
    rw [Int64.toInt_add, isOddInt_bmod (Nat.dvd_of_mod_eq_zero rfl), isOddInt_add]
    rfl
  sub a b := by
    show isOddInt (a - b).toInt = _
    rw [Int64.toInt_sub, isOddInt_bmod (Nat.dvd_of_mod_eq_zero rfl), Int.sub_eq_add_neg,
      isOddInt_add, isOddInt_neg]
    rfl
  mul a b := by
    show isOddInt (a * b).toInt = _
    rw [Int64.toInt_mul, isOddInt_bmod (Nat.dvd_of_mod_eq_zero rfl), isOddInt_mul]
    rfl

namespace Parity

open Analysis (succeeds_ok)

/-- What is found with parities is right in every arithmetic that respects them. -/
theorem rightFor {N : Type} [DecidableEq N] {isOdd : N → Bool} {A : Arithmetic N}
    (hA : A.RespectsParity isOdd) (T : TextOperators N) {env : Environment Parity}
    {ρ : Store (Value N)} (hρ : env.Describes (Contains isOdd) ρ) :
    Environment.RightFor (A.semantics T) (Contains isOdd) env ρ :=
  Environment.rightFor_of_describes (domainSound hA) totalDomain (fun _ _ => succeeds_ok _) hρ

/-- **Parities are sound for exact integers and for words alike.** In every store an environment
describes, the parities found cover the values of all expressions, the answers about conditions are
right, and assuming a condition that is true keeps the store described. -/
theorem right_for_integers_and_words (env : Environment Parity) :
    (∀ div rem T (ρ : Store (Value Int)), env.Describes (Contains isOddInt) ρ →
      Environment.RightFor ((Arithmetic.integers div rem).semantics T) (Contains isOddInt) env ρ) ∧
    (∀ div rem T (ρ : Store (Value Int64)), env.Describes (Contains isOddWord) ρ →
      Environment.RightFor ((Arithmetic.words div rem).semantics T) (Contains isOddWord) env
        ρ) := by
  refine ⟨fun div rem T ρ hρ => ?_, fun div rem T ρ hρ => ?_⟩
  · exact rightFor (Arithmetic.integers_respectsParity div rem) T hρ
  · exact rightFor (Arithmetic.words_respectsParity div rem) T hρ

/-- Whether `y` follows `x`. -/
def isSuccessor : Expr :=
  let number := TypeSet.single .numeric
  let successor := .binary .numericAdd (.var "x" number) (.constant (.int 1) number) number
  .binary .comparisonEq successor (.var "y" number) (.single .boolean)

/-- The least word follows the greatest one. -/
theorem right_for_words_wrapping_around :
    let S := (Arithmetic.words (fun _ _ => none) (fun _ _ => none)).semantics (.undefined Int64)
    let S' := (Arithmetic.integers (fun _ _ => none) (fun _ _ => none)).semantics (.undefined Int)
    let env : Environment Parity := .entries (.ofList [("x", .odd)])
    let ρ : Store (Value Int64) :=
      fun x => .number (if x = "x" then Int64.maxValue else Int64.minValue)
    let ρ' : Store (Value Int) := fun x => .number (if x = "x" then -5 else -4)
    env.Describes (Contains isOddWord) ρ ∧ S.Evaluates ρ isSuccessor (.bool true) ∧
      env.Describes (Contains isOddInt) ρ' ∧ S'.Evaluates ρ' isSuccessor (.bool true) ∧
      ∃ env', env.assume isSuccessor ⟨"test"⟩ = .ok env' ∧ env'.Describes (Contains isOddWord) ρ ∧
        env'.Describes (Contains isOddInt) ρ' := by
  intro S S' env ρ ρ'
  have hρ : env.Describes (Contains isOddWord) ρ :=
    Pointwise.describes_ofList (List.forall_mem_singleton.mpr rfl)
  have hρ' : env.Describes (Contains isOddInt) ρ' :=
    Pointwise.describes_ofList (List.forall_mem_singleton.mpr rfl)
  have hone : ∀ {N : Type} [DecidableEq N] {A : Arithmetic N} {σ : Store (Value N)},
      (A.semantics (.undefined N)).Evaluates σ (.constant (.int 1) (.single .numeric))
        (.number (A.literal 1)) := fun {_ _ _ _} => .constant (TypeSet.admits_single .numeric)
  have hv : S.Evaluates ρ isSuccessor (.bool true) := by
    refine .binary (.binary (Arithmetic.evaluates_var rfl) hone rfl
      (TypeSet.admits_single .numeric)) (Arithmetic.evaluates_var rfl) ?_
      (TypeSet.admits_single .boolean)
    rfl
  have hv' : S'.Evaluates ρ' isSuccessor (.bool true) := by
    refine .binary (.binary (Arithmetic.evaluates_var rfl) hone rfl
      (TypeSet.admits_single .numeric)) (Arithmetic.evaluates_var rfl) ?_
      (TypeSet.admits_single .boolean)
    rfl
  obtain ⟨hints, hwords⟩ := right_for_integers_and_words env
  obtain ⟨env', h, hd⟩ := (hwords _ _ _ ρ hρ).assume isSuccessor ⟨"test"⟩ hv
  obtain ⟨env'', h', hd'⟩ := (hints _ _ _ ρ' hρ').assume isSuccessor ⟨"test"⟩ hv'
  obtain rfl := Except.ok.inj (h.symm.trans h')
  exact ⟨hρ, hv, hρ', hv', env', h, hd, hd'⟩

end Parity

end AbstractDomains
