import AbstractDomains.Proofs.Heap.Reached
import AbstractDomains.Proofs.ProductPrecision
import Mathlib.Algebra.Order.BigOperators.Group.List
import Mathlib.Data.Set.Card
import Mathlib.Data.Set.Finite.Lattice

/-!
# Widening ends every iteration

An iteration widens its state by what it finds, again and again. If widening is joining, the states
ascend, and over values of finite height an ascent has to end: what is known under a key can only
move up so often before it is forgotten, and a key that nothing is known of stays so, whatever is
found. The room that is left under the keys known at first, added up, is less after each change.

Results:
* `encard_changes_le`: a number that drops at every change bounds the changes.
* `exists_widenings`: widening never fails where it is joining, and ascends.
* `Pointwise.stabilizes`: every ascent of canonical maps ends, after as many changes as there are
  keys, times the height of the values.
* `Environment.widening_stabilizes`, `Memory.widening_stabilizes`.
-/

namespace AbstractDomains

/-! ## Counting changes -/

section Counting

variable {α : Type} {x : ℕ → α} {m : ℕ}

/-- **A number that drops at every change** and never rises bounds how many changes there are. -/
theorem encard_changes_le (room : ℕ → ℕ) (hle : ∀ n, m ≤ n → room (n + 1) ≤ room n)
    (hlt : ∀ n, m ≤ n → x (n + 1) ≠ x n → room (n + 1) < room n) :
    {n | m ≤ n ∧ x (n + 1) ≠ x n}.encard ≤ room m := by
  have hdown : ∀ {i j}, m ≤ i → i ≤ j → room j ≤ room i := fun {i j} hi hij =>
    Nat.rel_of_forall_rel_succ_of_le_of_le (· ≥ ·) hle hi hij
  -- after a change there is less room than after every earlier one
  have hanti : StrictAntiOn (fun n => room (n + 1)) {n | m ≤ n ∧ x (n + 1) ≠ x n} := by
    rintro i ⟨hi, -⟩ j ⟨hj, hchange⟩ hij
    calc room (j + 1) < room j := hlt j hj hchange
      _ ≤ room (i + 1) := hdown (Nat.le_succ_of_le hi) hij
  have hrange : (fun n => room (n + 1)) '' {n | m ≤ n ∧ x (n + 1) ≠ x n} ⊆
      Finset.range (room m) := by
    rintro _ ⟨n, ⟨hn, hchange⟩, rfl⟩
    have hfirst : room n ≤ room m := hdown le_rfl hn
    exact Finset.mem_coe.mpr (Finset.mem_range.mpr ((hlt n hn hchange).trans_le hfirst))
  calc {n | m ≤ n ∧ x (n + 1) ≠ x n}.encard
      = ((fun n => room (n + 1)) '' {n | m ≤ n ∧ x (n + 1) ≠ x n}).encard :=
        hanti.injOn.encard_image.symm
    _ ≤ (Finset.range (room m) : Set ℕ).encard := Set.encard_le_encard hrange
    _ = room m := by rw [Set.encard_coe_eq_coe_finsetCard, Finset.card_range]

/-- A sequence with finitely many changes ends up constant. -/
theorem exists_constant (h : {n | m ≤ n ∧ x (n + 1) ≠ x n}.Finite) :
    ∃ N, ∀ n, N ≤ n → x n = x N := by
  obtain ⟨last, hlast⟩ := h.bddAbove
  have hsame : ∀ n, max m (last + 1) ≤ n → x (n + 1) = x n := by
    intro n hn
    by_contra hchange
    have hbound : n ≤ last := hlast ⟨(le_max_left _ _).trans hn, hchange⟩
    have hlarge : last + 1 ≤ n := (le_max_right _ _).trans hn
    omega
  refine ⟨max m (last + 1), fun n hn => ?_⟩
  induction n, hn using Nat.le_induction with
  | base => rfl
  | succ n hn ih => exact (hsame n hn).trans ih

end Counting

/-! ## Iterations -/

section Iteration

variable {α : Type} [DecidableEq α] [AbstractLattice α] {C : α → Prop} {R : α → α → Prop}

/-- The states of an iteration that starts with `s` and widens by what is found in each round. -/
def widenings (s : α) (found : ℕ → α) : ℕ → Analysis α
  | 0 => .ok s
  | n + 1 => do widen (← widenings s found n) (found n)

/-- **Where widening is joining it never fails**, and each state is above the one before. -/
theorem exists_widenings (hR : LatticeOrder C R) (hwiden : (widen : α → α → Analysis α) = join)
    {s : α} {found : ℕ → α} (hs : C s) (hfound : ∀ n, C (found n)) :
    ∃ x : ℕ → α, (∀ n, widenings s found n = .ok (x n)) ∧ (∀ n, C (x n)) ∧
      ∀ n, R (x n) (x (n + 1)) := by
  have hall : ∀ n, ∃ a, widenings s found n = .ok a ∧ C a := by
    intro n
    induction n with
    | zero => exact ⟨s, rfl, hs⟩
    | succ n ih =>
      obtain ⟨a, ha, hmem⟩ := ih
      obtain ⟨b, hb, hjoin⟩ := hR.exists_join hmem (hfound n)
      refine ⟨b, ?_, hjoin.mem⟩
      rw [widenings, ha]
      exact (congrFun (congrFun hwiden a) (found n)).trans hb
  choose x hx hmem using hall
  refine ⟨x, hx, hmem, fun n => ?_⟩
  have hstep : widen (x n) (found n) = .ok (x (n + 1)) := by
    have hnext := hx (n + 1)
    rw [widenings, hx n] at hnext
    exact hnext
  rw [hwiden] at hstep
  exact (hR.isJoin_of_join (hmem n) (hfound n) hstep).left

/-- `room a` is less after each move up from `a`, and at most `h` unless `a` is bottom. -/
structure FiniteHeight (C : α → Prop) (R : α → α → Prop) (room : α → ℕ) (h : ℕ) : Prop where
  room_lt : ∀ {a b}, C a → C b → R a b → b ≠ a → room b < room a
  room_le : ∀ {a}, C a → a ≠ bottom → room a ≤ h

variable {R' : α → α → Prop} {room : α → ℕ} {h h' : ℕ} {a b : α}

theorem FiniteHeight.mono (hh : FiniteHeight C R room h) (hle : h ≤ h') :
    FiniteHeight C R room h' where
  room_lt := hh.room_lt
  room_le ha hne := (hh.room_le ha hne).trans hle

theorem FiniteHeight.of_imp (hh : FiniteHeight C R room h) (himp : ∀ {a b}, R' a b → R a b) :
    FiniteHeight C R' room h where
  room_lt ha hb hab := hh.room_lt ha hb (himp hab)
  room_le := hh.room_le

theorem FiniteHeight.room_anti (hh : FiniteHeight C R room h) (ha : C a) (hb : C b) (hab : R a b) :
    room b ≤ room a := by
  by_cases hne : b = a
  · rw [hne]
  · exact (hh.room_lt ha hb hab hne).le

end Iteration

/-- **The height of a product** is that of its components together: a move up is one in either of
them, and it does not take the other one back. -/
theorem ReducedProduct.finiteHeight {α β : Type} [DecidableEq α] [DecidableEq β]
    [AbstractLattice α] [AbstractLattice β] {r : Reduction α β} {C : α → Prop} {D : β → Prop}
    {P : ReducedProduct r → Prop} {room : α → ℕ} {room' : β → ℕ} {h h' : ℕ} [Describe α]
    [Describe β] (hα : OrderOn C Below) (hβ : OrderOn D Below) (hC : FiniteHeight C Below room h)
    (hD : FiniteHeight D Below room' h')
    (hP : ∀ {p}, P p → C p.left ∧ D p.right ∧ p.Smashed) :
    FiniteHeight P ComponentsBelow (fun p => room p.left + room' p.right) (h + h') where
  room_lt {p q} hp hq hpq hne := by
    obtain ⟨hpl, hpr, -⟩ := hP hp
    obtain ⟨hql, hqr, -⟩ := hP hq
    have hleft : room q.left ≤ room p.left := hC.room_anti hpl hql hpq.1
    have hright : room' q.right ≤ room' p.right := hD.room_anti hpr hqr hpq.2
    by_cases hl : q.left = p.left
    · have hr : q.right ≠ p.right := fun hr => hne (ext hl hr)
      have hlt : room' q.right < room' p.right := hD.room_lt hpr hqr hpq.2 hr
      omega
    · have hlt : room q.left < room p.left := hC.room_lt hpl hql hpq.1 hl
      omega
  room_le {p} hp hne := by
    obtain ⟨hpl, hpr, hsmashed⟩ := hP hp
    obtain ⟨hl, hr⟩ := hsmashed.resolve_left hne
    have hleft : room p.left ≤ h := hC.room_le hpl fun hb => Bool.eq_false_iff.mp hl
      ((hα.isBottom_iff hpl).mpr hb)
    have hright : room' p.right ≤ h' := hD.room_le hpr fun hb => Bool.eq_false_iff.mp hr
      ((hβ.isBottom_iff hpr).mpr hb)
    omega

/-! ## Maps -/

namespace Pointwise

variable {κ α : Type} [Ord κ] [DecidableEq α] [AbstractLattice α] {P : α → Prop}
  {R : α → α → Prop} {room : α → ℕ} {h : ℕ} {s t : Pointwise κ α} {known : List κ}

/-- The keys that a map has. -/
def keys : Pointwise κ α → List κ
  | bottom => []
  | entries m => m.keys

/-- How many keys a map has. -/
def size (s : Pointwise κ α) : ℕ :=
  s.keys.length

/-- Nothing is known of other keys. -/
def KnownWithin (known : List κ) (s : Pointwise κ α) : Prop :=
  ∀ k, k ∉ known → s.read k = top

/-- The room that is left for the values under some keys. -/
def roomUnder (room : α → ℕ) (known : List κ) (s : Pointwise κ α) : ℕ :=
  (known.map fun k => room (s.read k)).sum

/-- The sequence ends up constant, and it changes at most `h` times for each key that it has when it
is no longer bottom. -/
def Stabilizes (h : ℕ) (x : ℕ → Pointwise κ α) : Prop :=
  (∃ N, ∀ n, N ≤ n → x n = x N) ∧
    ∀ m, x m ≠ bottom → {n | m ≤ n ∧ x (n + 1) ≠ x n}.encard ≤ (h * (x m).size : ℕ)

/-- No key enters on the way up. -/
theorem KnownWithin.of_le (hR : OrderOn P R) (ht : Canonical P t) (hs : KnownWithin known s)
    (hst : ∀ k, R (s.read k) (t.read k)) : KnownWithin known t := by
  intro k hk
  have hread : R top (t.read k) := hs k hk ▸ hst k
  exact hR.eq_top (ht.read_mem hR k) hread

/-- In a map that is not bottom the height bounds the room of each value. -/
theorem roomUnder_le (hR : OrderOn P R) (hh : FiniteHeight P R room h) (hs : Canonical P s)
    (hne : s ≠ bottom) : roomUnder room known s ≤ h * known.length := by
  have hall : ∀ n ∈ known.map fun k => room (s.read k), n ≤ h := by
    intro n hn
    obtain ⟨k, -, rfl⟩ := List.mem_map.mp hn
    exact hh.room_le (hs.read_mem hR k) (hs.read_ne_bottom hR hne k)
  have hsum := List.sum_le_card_nsmul _ h hall
  rw [List.length_map, Nat.nsmul_eq_mul, Nat.mul_comm] at hsum
  exact hsum

variable [Std.LawfulEqOrd κ]

theorem knownWithin_keys (hne : s ≠ bottom) : KnownWithin s.keys s := by
  intro k hk
  cases s with
  | bottom => exact absurd rfl hne
  | entries m =>
    cases hget : m.get? k with
    | none => exact read_of_get?_eq_none hget
    | some a => exact absurd (FinMap.mem_keys_iff.mpr (FinMap.contains_iff.mpr ⟨a, hget⟩)) hk

variable [Std.TransOrd κ]

/-- **Each change uses room up** under some key. -/
theorem roomUnder_lt (hR : OrderOn P R) (hh : FiniteHeight P R room h) (hs : Canonical P s)
    (ht : Canonical P t) (hsne : s ≠ bottom) (htne : t ≠ bottom) (hknown : KnownWithin known s)
    (hst : ∀ k, R (s.read k) (t.read k)) (hchange : t ≠ s) :
    roomUnder room known t < roomUnder room known s := by
  have hall : ∀ k ∈ known, room (t.read k) ≤ room (s.read k) := fun k _ =>
    hh.room_anti (hs.read_mem hR k) (ht.read_mem hR k) (hst k)
  have hsome : ∃ k, t.read k ≠ s.read k := by
    by_contra hsame
    exact hchange (ht.eq_of_read hs htne hsne fun k => not_not.mp (not_exists.mp hsame k))
  obtain ⟨k, hk⟩ := hsome
  have hmem : k ∈ known := by
    by_contra hnot
    exact hk ((hknown.of_le hR ht hst k hnot).trans (hknown k hnot).symm)
  have hlt : room (t.read k) < room (s.read k) :=
    hh.room_lt (hs.read_mem hR k) (ht.read_mem hR k) (hst k) hk
  exact List.sum_lt_sum _ _ hall ⟨k, hmem, hlt⟩

variable {x : ℕ → Pointwise κ α}

/-- **Every ascent of canonical maps stabilizes** if that of their values does. -/
theorem stabilizes (hR : OrderOn P R) (hh : FiniteHeight P R room h)
    (hx : ∀ n, Canonical P (x n)) (hup : ∀ n, ReadsBelow R (x n) (x (n + 1))) : Stabilizes h x := by
  have hcount : ∀ m, x m ≠ bottom →
      {n | m ≤ n ∧ x (n + 1) ≠ x n}.encard ≤ (h * (x m).size : ℕ) := by
    intro m hm
    -- from the first state that is not bottom on, nothing is known of other keys
    have hinv : ∀ n, m ≤ n → x n ≠ bottom ∧ KnownWithin (x m).keys (x n) := by
      intro n hn
      induction n, hn using Nat.le_induction with
      | base => exact ⟨hm, knownWithin_keys hm⟩
      | succ n hn ih =>
        obtain ⟨hne, hreads⟩ := (hup n).resolve_left ih.1
        exact ⟨hne, ih.2.of_le hR (hx (n + 1)) hreads⟩
    have hlt : ∀ n, m ≤ n → x (n + 1) ≠ x n →
        roomUnder room (x m).keys (x (n + 1)) < roomUnder room (x m).keys (x n) := by
      intro n hn hchange
      obtain ⟨hne, hknown⟩ := hinv n hn
      obtain ⟨hne', hreads⟩ := (hup n).resolve_left hne
      exact roomUnder_lt hR hh (hx n) (hx (n + 1)) hne hne' hknown hreads hchange
    have hle : ∀ n, m ≤ n →
        roomUnder room (x m).keys (x (n + 1)) ≤ roomUnder room (x m).keys (x n) := by
      intro n hn
      by_cases hsame : x (n + 1) = x n
      · rw [hsame]
      · exact (hlt n hn hsame).le
    calc {n | m ≤ n ∧ x (n + 1) ≠ x n}.encard
        ≤ roomUnder room (x m).keys (x m) :=
          encard_changes_le (fun n => roomUnder room (x m).keys (x n)) hle hlt
      _ ≤ (h * (x m).size : ℕ) := Nat.cast_le.mpr (roomUnder_le hR hh (hx m) hm)
  refine ⟨?_, hcount⟩
  by_cases hall : ∀ n, x n = bottom
  · exact ⟨0, fun n _ => (hall n).trans (hall 0).symm⟩
  · obtain ⟨m, hm⟩ := not_forall.mp hall
    exact exists_constant (Set.finite_of_encard_le_coe (hcount m hm))

variable [DecidableEq κ]

/-- Iterations on the maps in `Q` never fail, and stabilize. -/
def WideningStabilizes (h : ℕ) (Q : Pointwise κ α → Prop) : Prop :=
  ∀ (s : Pointwise κ α) (found : ℕ → Pointwise κ α), Q s → (∀ n, Q (found n)) →
    ∃ x, (∀ n, widenings s found n = .ok (x n)) ∧ Stabilizes h x

/-- **Widening stabilizes every iteration** on canonical maps. -/
theorem wideningStabilizes (hR : LatticeOrder P R) (hwiden : (widen : α → α → Analysis α) = join)
    (hh : FiniteHeight P R room h) {Q : Pointwise κ α → Prop} (hQ : ∀ {s}, Q s → Canonical P s) :
    WideningStabilizes h Q := by
  intro s found hs hfound
  obtain ⟨x, hx, hmem, hup⟩ := exists_widenings (latticeOrder hR) (widen_eq_join hwiden) (hQ hs)
    fun n => hQ (hfound n)
  exact ⟨x, hx, stabilizes hR.toOrderOn hh hmem hup⟩

end Pointwise

section States

variable {α : Type} [DecidableEq α] [ValueDomain α] {P : α → Prop} {R : α → α → Prop}
  {room : α → ℕ} {h : ℕ}

theorem Environment.wideningStabilizes (hD : DomainOn P R) (hh : FiniteHeight P R room h) :
    Pointwise.WideningStabilizes h (Environment.Reached P) :=
  Pointwise.wideningStabilizes hD.toLatticeOrder hD.widen_eq_join hh fun hs => hs.canonical hD

theorem Memory.wideningStabilizes (hD : DomainOn P R) (hh : FiniteHeight P R room h) :
    Pointwise.WideningStabilizes h (Memory.Reached P) :=
  Pointwise.wideningStabilizes hD.toLatticeOrder hD.widen_eq_join hh fun hs =>
    hs.canonical hD.toLatticeOrder hD.widen_eq_join

end States

end AbstractDomains
