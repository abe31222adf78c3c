import AbstractDomains.Expr.RuntimeType

/-!
# Sets of runtime types

`TypeSet` holds the candidate runtime types of an expression. A set is seen through `contains` and
listed by `toList` in the order of the types; sets compare as those lists do.

Results:
* `TypeSet.ext`: sets with the same members are equal.
* `TypeSet.contains_ofPred`, `TypeSet.mem_toList`, `TypeSet.ofList_toList`: the members of a set
  are the ones it was built from.
* `TypeSet` is linearly ordered.
-/

namespace AbstractDomains

/-- The candidate runtime types of an expression, one bit for each type. -/
structure TypeSet where
  bits : BitVec 7
deriving DecidableEq

namespace TypeSet

/-- Whether `t` is one of the candidates. -/
def contains (s : TypeSet) (t : RuntimeType) : Bool :=
  s.bits.getLsbD (Keyword.rank t)

theorem ext {s t : TypeSet} (h : ∀ τ, s.contains τ = t.contains τ) : s = t := by
  obtain ⟨s⟩ := s
  obtain ⟨t⟩ := t
  refine congrArg TypeSet.mk (BitVec.eq_of_getLsbD_eq fun i hi => ?_)
  match i, hi with
  | 0, _ => exact h .untyped
  | 1, _ => exact h .numeric
  | 2, _ => exact h .boolean
  | 3, _ => exact h .string
  | 4, _ => exact h .null
  | 5, _ => exact h .reference
  | 6, _ => exact h .void

/-- The set of the types with a property. -/
def ofPred (p : RuntimeType → Bool) : TypeSet :=
  ⟨BitVec.ofBoolListLE (RuntimeType.all.map p)⟩

@[simp]
theorem contains_ofPred (p : RuntimeType → Bool) (t : RuntimeType) :
    (ofPred p).contains t = p t :=
  BitVec.getLsbD_ofBoolListLE.trans (by cases t <;> rfl)

/-- The set of the listed types; order and repetition do not matter. -/
def ofList (types : List RuntimeType) : TypeSet :=
  ofPred types.contains

@[simp]
theorem contains_ofList (types : List RuntimeType) (t : RuntimeType) :
    (ofList types).contains t = types.contains t :=
  contains_ofPred _ t

/-- No candidate at all. -/
def empty : TypeSet :=
  ofList []

/-- A single candidate. -/
def single (t : RuntimeType) : TypeSet :=
  ofList [t]

/-- The members in the order of the types. -/
def toList (s : TypeSet) : List RuntimeType :=
  RuntimeType.all.filter s.contains

theorem mem_toList {s : TypeSet} {t : RuntimeType} : t ∈ s.toList ↔ s.contains t = true := by
  have : t ∈ RuntimeType.all := Keyword.mem_all t
  simp [toList, this]

theorem ofList_toList (s : TypeSet) : ofList s.toList = s :=
  ext fun t => by
    rw [contains_ofList, Bool.eq_iff_iff, List.contains_iff_mem, mem_toList]

theorem toList_injective {s t : TypeSet} (h : s.toList = t.toList) : s = t := by
  rw [← ofList_toList s, h, ofList_toList]

/-- How many candidates there are. -/
def size (s : TypeSet) : Nat :=
  s.toList.length

/-- Nothing is known yet: no candidate, or the placeholder is one. -/
def isUntyped (s : TypeSet) : Bool :=
  s = empty || s.contains .untyped

/--
Whether an operand with these candidates may stand where `category` is expected. Unknown types
and several candidates are accepted; a single one has to belong to the category.
-/
def accepts (s : TypeSet) (category : Category) : Bool :=
  s.isUntyped || 1 < s.size || s.toList.any category.includes

/-- The members between braces, separated by commas. -/
protected def toString (s : TypeSet) : String :=
  "\x7b" ++ ", ".intercalate (s.toList.map RuntimeType.name) ++ "\x7d"

instance : ToString TypeSet := ⟨TypeSet.toString⟩

instance : Ord TypeSet where
  compare := compareOn toList

instance : Std.TransOrd TypeSet :=
  inferInstanceAs (Std.TransCmp (compareOn toList))

instance : Std.LawfulEqOrd TypeSet where
  compare_self {s} := by
    change compare s.toList s.toList = .eq
    exact Std.ReflCmp.compare_self
  eq_of_compare h := toList_injective (Std.LawfulEqCmp.eq_of_compare h)

end TypeSet

end AbstractDomains
