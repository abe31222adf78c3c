import AbstractDomains.Proofs.Widening
import AbstractDomains.Proofs.Numeric.Precision

/-!
# How often signs and parities change

A sign that is not bottom moves up twice at most, from `+` to `0+` and from there to top. A parity
moves up once, and so a pair of both moves up three times: the reduction after a step does not take
back what the step gained.

Results:
* `Sign.finiteHeight`, `Parity.finiteHeight`, `SignParity.finiteHeight`: the heights.
* `widening_stabilizes`: all iterations on environments and on memories of the three domains.
-/

namespace AbstractDomains

/-- How often a sign can move up. -/
def Sign.room : Sign → ℕ
  | .bottom => 3
  | .minus | .zero | .plus => 2
  | .zeroMinus | .zeroPlus => 1
  | .top => 0

/-- How often a parity can move up. -/
def Parity.room : Parity → ℕ
  | .bottom => 2
  | .even | .odd => 1
  | .top => 0

theorem Sign.finiteHeight :
    FiniteHeight (fun _ => True) (fun s t : Sign => s.below t = true) room 2 where
  room_lt {s t} _ _ hst hne := by
    revert s t
    decide
  room_le {s} _ hne := by
    revert s
    decide

theorem Parity.finiteHeight : FiniteHeight (fun _ => True) Parity.IsBelow room 1 where
  room_lt {p q} _ _ hpq hne := by
    revert p q
    decide
  room_le {p} _ hne := by
    revert p
    decide

theorem SignParity.finiteHeight : FiniteHeight SignParity.Built ReducedProduct.ComponentsBelow
    (fun p => p.left.room + p.right.room) 3 :=
  ReducedProduct.finiteHeight (C := fun _ => True) (D := fun _ => True) Sign.latticeOn.toOrderOn
    Parity.latticeOn.toOrderOn
    (Sign.finiteHeight.of_imp (Sign.leqDecides.below_iff trivial trivial).mp)
    (Parity.finiteHeight.of_imp (Parity.leqDecides.below_iff trivial trivial).mp)
    fun hp => ⟨trivial, trivial, hp.smashed rfl rfl⟩

/-- **Widening stabilizes every iteration** on environments and on memories of signs, of parities
and of both: it never fails, ends up constant, and changes at most three times for each variable or
cell that is known when the state is no longer bottom. -/
theorem widening_stabilizes :
    (Pointwise.WideningStabilizes 3 (Environment.Reached fun _ : Sign => True) ∧
      Pointwise.WideningStabilizes 3 (Memory.Reached fun _ : Sign => True)) ∧
    (Pointwise.WideningStabilizes 3 (Environment.Reached fun _ : Parity => True) ∧
      Pointwise.WideningStabilizes 3 (Memory.Reached fun _ : Parity => True)) ∧
    Pointwise.WideningStabilizes 3 (Environment.Reached SignParity.Built) ∧
      Pointwise.WideningStabilizes 3 (Memory.Reached SignParity.Built) := by
  have hsign := Sign.finiteHeight.mono (Nat.le_succ 2)
  have hparity := Parity.finiteHeight.mono (Nat.le_add_left 1 2)
  have hpair := SignParity.finiteHeight
  refine ⟨⟨?_, ?_⟩, ⟨?_, ?_⟩, ?_, ?_⟩
  · exact Environment.wideningStabilizes Sign.domainOn hsign
  · exact Memory.wideningStabilizes Sign.domainOn hsign
  · exact Environment.wideningStabilizes Parity.domainOn hparity
  · exact Memory.wideningStabilizes Parity.domainOn hparity
  · exact Environment.wideningStabilizes SignParity.domainOn hpair
  · exact Memory.wideningStabilizes SignParity.domainOn hpair

/-- Numbers that are found for `x`, one after the other, and another variable besides. -/
def climb : ℕ → Environment SignParity
  | 0 => Pointwise.set (Pointwise.set .top "y" ⟨.plus, .odd⟩) "x" ⟨.zero, .even⟩
  | 1 => Pointwise.set .top "x" ⟨.minus, .even⟩
  | 2 => Pointwise.set .top "x" ⟨.minus, .odd⟩
  | _ => .bottom

theorem climb_reached (n : ℕ) : (climb n).Reached SignParity.Built := by
  have hbuilt : ∀ {s : Sign} {p : Parity} {q : SignParity},
      (ReducedProduct.pair s p : Analysis SignParity) = .ok q → SignParity.Built q :=
    .pair trivial trivial
  have hzero := hbuilt (s := .zero) (p := .even) rfl
  have hodd := hbuilt (s := .minus) (p := .odd) rfl
  have heven := hbuilt (s := .minus) (p := .even) rfl
  have hy := hbuilt (s := .plus) (p := .odd) rfl
  unfold climb
  split
  · exact .set "x" (.set "y" .top hy) hzero
  · exact .set "x" .top heven
  · exact .set "x" .top hodd
  · exact .bottom

/-- One variable can take all three changes. -/
theorem widening_stabilizes_of_climb :
    let start : Environment SignParity := Pointwise.set .top "x" ⟨.plus, .even⟩
    ∃ x, (∀ n, widenings start climb n = .ok (x n)) ∧ Pointwise.Stabilizes 3 x ∧ (x 0).size = 1 ∧
      x 1 = Pointwise.set .top "x" ⟨.zeroPlus, .even⟩ ∧
      x 2 = Pointwise.set .top "x" ⟨.top, .even⟩ ∧ x 3 = .top := by
  intro start
  have hstart : start.Reached SignParity.Built :=
    .set "x" .top (.pair (a := .plus) (b := .even) trivial trivial rfl)
  obtain ⟨x, hx, hstable⟩ := widening_stabilizes.2.2.1 start climb hstart climb_reached
  have hvalue : ∀ {n s}, widenings start climb n = .ok s → x n = s := fun h =>
    Except.ok.inj ((hx _).symm.trans h)
  refine ⟨x, hx, hstable, ?_, hvalue rfl, hvalue rfl, hvalue rfl⟩
  rw [hvalue (n := 0) rfl]
  rfl

end AbstractDomains
