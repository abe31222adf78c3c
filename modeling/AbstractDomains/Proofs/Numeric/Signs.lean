import Mathlib.Data.Sign.Basic
import AbstractDomains.Numeric.Sign
import AbstractDomains.Proofs.Concretization
import AbstractDomains.Proofs.Numeric.Values

/-!
# What signs stand for

A sign stands for the numbers on its side of zero, in any ordered ring. Whether it stands for a
number rests on whether that number is negative, zero or positive (`Sign.has`), so that each table
is checked once for each of its entries.

Results:
* `Sign.has_add`, `Sign.has_mul`, `Sign.has_div`, `Sign.has_rem`: the tables of the arithmetic.
* `Sign.meetAtZero_of_incomparable`, `Sign.shared_of_incomparable`: incomparable signs that are not
  disjoint, and the one number they share.
* `Sign.latticeSound`: signs are a sound lattice.
* `Sign.lt_of_contains`, `Sign.le_of_contains`: numbers of signs that lie below one another.
-/

namespace AbstractDomains

namespace Sign

open SignType (sign)

/-! ## Tables -/

/-- Whether a sign stands for negative numbers, for zero, and for positive numbers. -/
def has : Sign → SignType → Bool
  | bottom, _ => false
  | zero, x => x = 0
  | plus, x => x = 1
  | minus, x => x = -1
  | zeroPlus, x => 0 ≤ x
  | zeroMinus, x => x ≤ 0
  | top, _ => true

variable {s t : Sign} {x y z : SignType}

theorem has_negate (hs : s.has x = true) : s.negate.has (-x) = true := by
  revert hs
  cases s <;> decide +revert

/-- A sum of numbers on the same side of zero stays there, and zero adds nothing. -/
def IsSum (x y z : SignType) : Prop :=
  (x = y → z = x) ∧ (x = 0 → z = y) ∧ (y = 0 → z = x)

instance : Decidable (IsSum x y z) :=
  inferInstanceAs (Decidable (_ ∧ _))

theorem has_add (hs : s.has x = true) (ht : t.has y = true) (hz : IsSum x y z) :
    (s.add t).has z = true := by
  revert hs ht hz
  cases s <;> cases t <;> decide +revert

theorem has_mul (hs : s.has x = true) (ht : t.has y = true) : (s.mul t).has (x * y) = true := by
  revert hs ht
  cases s <;> cases t <;> decide +revert

/-- A quotient is a factor of the dividend, and the other factor is not zero. -/
theorem has_div (hs : s.has x = true) (ht : t.has y = true) (hy : y ≠ 0) (hz : z * y = x) :
    (s.div t).has z = true := by
  revert hs ht hy hz
  cases s <;> cases t <;> decide +revert

/-- A quotient that is rounded to zero is covered unless the sign found for it is strict. -/
theorem has_div_zero (hs : s.has x = true) (ht : t.has y = true) (hy : y ≠ 0)
    (hplus : s.div t ≠ plus) (hminus : s.div t ≠ minus) : (s.div t).has 0 = true := by
  revert hs ht hy hplus hminus
  cases s <;> cases t <;> decide +revert

/-- A remainder is zero or on the side of the dividend. -/
theorem has_rem (hs : s.has x = true) (ht : t.has y = true) (hy : y ≠ 0)
    (hnonneg : 0 ≤ x → 0 ≤ z) (hnonpos : x ≤ 0 → z ≤ 0) : (s.rem t).has z = true := by
  revert hs ht hy hnonneg hnonpos
  cases s <;> cases t <;> decide +revert

theorem lt_of_strictlyBelow (h : s.strictlyBelow t = true) (hs : s.has x = true)
    (ht : t.has y = true) : x < y := by
  revert h hs ht
  cases s <;> cases t <;> decide +revert

theorem nonpos_nonneg_of_weaklyBelow (h : s.weaklyBelow t = true) (hs : s.has x = true)
    (ht : t.has y = true) : x ≤ 0 ∧ 0 ≤ y := by
  revert h hs ht
  cases s <;> cases t <;> decide +revert

theorem has_joinProper (h : s.has x = true ∨ t.has x = true) :
    (joinProper s t).has x = true := by
  revert h
  cases s <;> cases t <;> decide +revert

theorem has_meetProper (hne : s ≠ t) (hs : s ≠ top) (ht : t ≠ top) (hx : s.has x = true)
    (hy : t.has x = true) : (meetProper s t).has x = true := by
  revert hne hs ht hx hy
  cases s <;> cases t <;> decide +revert

/-- Whether every number of the first sign is one of the second. -/
def below (s t : Sign) : Bool :=
  s = t || s = bottom || t = top || leqProper s t

theorem leq_eq_below (s t : Sign) : leq s t = .ok (s.below t) := by
  cases s <;> cases t <;> rfl

/-- The two signs on opposite sides of zero that both include zero. -/
def MeetAtZero (s t : Sign) : Prop :=
  (s = zeroPlus ∧ t = zeroMinus) ∨ (s = zeroMinus ∧ t = zeroPlus)

instance : Decidable (MeetAtZero s t) :=
  inferInstanceAs (Decidable (_ ∨ _))

/-- **Incomparable signs share nothing but zero**, and that in one case only. -/
theorem meetAtZero_of_incomparable (hst : s.below t = false) (hts : t.below s = false)
    (hs : s.has x = true) (ht : t.has x = true) : MeetAtZero s t ∧ x = 0 := by
  revert hst hts hs ht
  cases s <;> cases t <;> decide +revert

/-! ## The values of a sign -/

section Values

variable {N : Type} [Ring N] [LinearOrder N]

/-- The values a sign stands for. -/
def Contains : Sign → Value N → Prop
  | top, _ => True
  | zero, .number n => n = 0
  | plus, .number n => 0 < n
  | minus, .number n => n < 0
  | zeroPlus, .number n => 0 ≤ n
  | zeroMinus, .number n => n ≤ 0
  | _, _ => False

variable {s t : Sign} {n : N} {v : Value N}

theorem contains_number : s.Contains (.number n) ↔ s.has (sign n) = true := by
  cases s <;> simp [Contains, has, sign_eq_one_iff, sign_eq_neg_one_iff, sign_eq_zero_iff,
    sign_nonneg_iff, sign_nonpos_iff]

/-- Only top stands for values that are not numbers. -/
theorem number_or_top (h : s.Contains v) : (∃ n, v = .number n) ∨ s = top := by
  cases v with
  | number n => exact .inl ⟨n, rfl⟩
  | _ =>
    cases s
    case top => exact .inr rfl
    all_goals exact h.elim

theorem contains_joinProper (h : s.Contains v ∨ t.Contains v) : (joinProper s t).Contains v := by
  have htop : (∃ n, v = .number n) ∨ joinProper s t = top := by
    rcases h with h | h
    · exact (number_or_top h).imp_right fun hs => by subst hs; rfl
    · exact (number_or_top h).imp_right fun ht => by subst ht; cases s <;> rfl
  rcases htop with ⟨n, rfl⟩ | htop
  · rw [contains_number, contains_number] at h
    rw [contains_number]
    exact has_joinProper h
  · rw [htop]
    trivial

theorem contains_meetProper (h : Proper s t) (hs : s.Contains v) (ht : t.Contains v) :
    (meetProper s t).Contains v := by
  have hstop : s ≠ top := of_decide_eq_false h.left_top
  have httop : t ≠ top := of_decide_eq_false h.right_top
  rcases number_or_top hs with ⟨n, rfl⟩ | htop
  · rw [contains_number] at hs ht ⊢
    exact has_meetProper h.ne hstop httop hs ht
  · exact absurd htop hstop

theorem latticeSound : LatticeSound (Contains (N := N)) := by
  refine .of_proper of_decide_eq_true of_decide_eq_true (fun _ => id) (fun _ => trivial) ?_ ?_ ?_
  · intro s t r v _ hr hv
    obtain rfl := Except.ok.inj hr
    exact contains_joinProper hv
  · intro s t r v _ hr hv
    obtain rfl := Except.ok.inj hr
    exact contains_joinProper hv
  · intro s t r v hst hr hs ht
    obtain rfl := Except.ok.inj hr
    exact contains_meetProper hst hs ht

/-- Incomparable signs have a value in common only if they meet at zero, and then it is zero. -/
theorem shared_of_incomparable (hst : leq s t = .ok false) (hts : leq t s = .ok false)
    (hs : s.Contains v) (ht : t.Contains v) : MeetAtZero s t ∧ v = .number 0 := by
  rw [leq_eq_below, Except.ok.injEq] at hst hts
  rcases number_or_top hs with ⟨n, rfl⟩ | rfl
  · rw [contains_number] at hs ht
    obtain ⟨hzero, hn⟩ := meetAtZero_of_incomparable hst hts hs ht
    exact ⟨hzero, congrArg Value.number (sign_eq_zero_iff.mp hn)⟩
  · cases t <;> exact nomatch hts

theorem lt_of_contains {a b : N} (h : s.strictlyBelow t = true) (hs : s.Contains (.number a))
    (ht : t.Contains (.number b)) : a < b := by
  rw [contains_number] at hs ht
  exact sign.monotone.reflect_lt (lt_of_strictlyBelow h hs ht)

theorem le_of_contains {a b : N} (h : s.weaklyBelow t = true) (hs : s.Contains (.number a))
    (ht : t.Contains (.number b)) : a ≤ b := by
  rw [contains_number] at hs ht
  obtain ⟨ha, hb⟩ := nonpos_nonneg_of_weaklyBelow h hs ht
  exact (sign_nonpos_iff.mp ha).trans (sign_nonneg_iff.mp hb)

end Values

end Sign

end AbstractDomains
