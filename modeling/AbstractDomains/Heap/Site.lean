import AbstractDomains.Expr.Order

/-!
# Allocation sites

An object of the heap is named by the location that allocates it, one of its cells by the location
and a field. A site is such a key with a strength: a strong one stands for a single object, a weak
one for all objects its location allocated.

Results:
* `SiteKey` is linearly ordered, by location first and field second, with no field before any.
* `Strength.weaker` and `Strength.stronger` are the maximum and minimum of `strong < weak`.
-/

namespace AbstractDomains

/-- The program location of an allocation. -/
abbrev Location := String

/-! ## Strength -/

/-- Whether a site stands for one object or may stand for several. -/
inductive Strength where
  | strong
  | weak
deriving DecidableEq

namespace Strength

/-- The name of a strength. -/
def name : Strength → String
  | strong => "strong"
  | weak => "weak"

instance : Keyword Strength where
  all := [strong, weak]
  word := name
  find?_word := by intro a; cases a <;> rfl

instance : Ord Strength := Keyword.ord
instance : Std.TransOrd Strength := Keyword.transOrd
instance : Std.LawfulEqOrd Strength := Keyword.lawfulEqOrd

/-- Whether several objects may be meant. -/
def isWeak : Strength → Bool
  | strong => false
  | weak => true

/-- Strong if both are. -/
def weaker : Strength → Strength → Strength
  | strong, t => t
  | weak, _ => weak

/-- Weak if both are. -/
def stronger : Strength → Strength → Strength
  | strong, _ => strong
  | weak, t => t

/-- `strong` is below `weak`. -/
def le : Strength → Strength → Bool
  | weak, strong => false
  | _, _ => true

end Strength

/-! ## Keys -/

/-- The name of a heap object or, with a field, of one of its cells. -/
structure SiteKey where
  location : Location
  field : Option Expr
deriving DecidableEq

namespace SiteKey

/-- Location first, field second. -/
protected def compare : SiteKey → SiteKey → Ordering :=
  compareLex (compareOn location) (compareOn field)

instance : Ord SiteKey := ⟨SiteKey.compare⟩

instance : Std.TransOrd SiteKey :=
  inferInstanceAs (Std.TransCmp (compareLex (compareOn location) (compareOn field)))

instance : Std.LawfulEqOrd SiteKey where
  compare_self {a} := by
    change a.compare a = .eq
    simp [SiteKey.compare, compareLex, compareOn]
  eq_of_compare {a b} h := by
    change a.compare b = .eq at h
    simp only [SiteKey.compare, compareLex, compareOn, Ordering.then_eq_eq,
      Std.LawfulEqOrd.compare_eq_iff_eq] at h
    cases a
    cases b
    simp_all

/-- The location, and the field in brackets if there is one. -/
protected def toString (key : SiteKey) : String :=
  match key.field with
  | none => s!"pp@{key.location}"
  | some field => s!"pp@{key.location}[{field}]"

instance : ToString SiteKey := ⟨SiteKey.toString⟩

end SiteKey

/-! ## Sites -/

/-- A key with the strength it had when it was issued. -/
structure AllocationSite where
  key : SiteKey
  strength : Strength
deriving DecidableEq

namespace AllocationSite

/-- Sites compare by their keys alone, since the strength of a key changes over time. -/
protected def compare (a b : AllocationSite) : Ordering :=
  Ord.compare a.key b.key

/-- Whether two sites have the same key. -/
def sameKey (a b : AllocationSite) : Bool :=
  a.key = b.key

/-- A write may replace the contents only if a single object is meant. -/
def allowsStrongUpdate (site : AllocationSite) : Bool :=
  !site.strength.isWeak

/-- The key, marked with its strength. -/
protected def toString (site : AllocationSite) : String :=
  site.key.toString ++ (if site.strength.isWeak then "[w]" else "[s]")

instance : ToString AllocationSite := ⟨AllocationSite.toString⟩

end AllocationSite

end AbstractDomains
