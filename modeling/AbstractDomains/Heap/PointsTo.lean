import AbstractDomains.Heap.SiteTable
import AbstractDomains.Lattice

/-!
# Points-to sets

The sites a pointer may refer to. No site means that the pointer has no value on any execution. A
set that mentions a site weakly is above the same set that mentions it strongly.
-/

namespace AbstractDomains

/-- Any site, or the listed ones with their strengths. -/
inductive PointsTo where
  | top
  | sites (map : FinMap SiteKey Strength)
deriving DecidableEq

namespace PointsTo

/-! ## Construction -/

/-- No site at all. -/
protected def bottom : PointsTo :=
  sites .empty

/-- With one more site; a key that is there already keeps the weaker strength. -/
def addSite (map : FinMap SiteKey Strength) (site : AllocationSite) : FinMap SiteKey Strength :=
  map.insert site.key (match map.get? site.key with
    | some strength => strength.weaker site.strength
    | none => site.strength)

/-- The set of the listed sites. -/
def ofSites (list : List AllocationSite) : PointsTo :=
  sites (list.foldl addSite .empty)

/-- The set of a single site. -/
def single (site : AllocationSite) : PointsTo :=
  ofSites [site]

/-! ## Members -/

/-- The sites in order of their keys; none if any site is possible. -/
def toList : PointsTo → List AllocationSite
  | top => []
  | sites map => map.entries.map fun e => ⟨e.1, e.2⟩

/-- How many sites there are, unless any site is possible. -/
def size? : PointsTo → Option Nat
  | top => none
  | sites map => some map.size

/-- Whether a key is possible. -/
def contains : PointsTo → SiteKey → Bool
  | top, _ => true
  | sites map, key => map.contains key

/-- The only target, if there is exactly one and it stands for a single object. -/
def strongTarget? : PointsTo → Option SiteKey
  | top => none
  | sites map => match map.entries with
    | [(key, .strong)] => some key
    | _ => none

/-- With the strengths that promotions have since given to the sites. -/
def refresh (set : PointsTo) (table : SiteTable) : PointsTo :=
  match set with
  | top => top
  | sites map => sites (map.filterMap fun key strength =>
      some (((table.strength? key.location).getD strength).weaker strength))

/-- The sites between braces. -/
protected def toString : PointsTo → String
  | top => "⊤"
  | set => "\x7b" ++ ", ".intercalate (set.toList.map AllocationSite.toString) ++ "\x7d"

instance : ToString PointsTo := ⟨PointsTo.toString⟩

/-! ## Aliasing -/

/-- Whether two pointers may refer to the same cell. -/
def mayAlias : PointsTo → PointsTo → Bool
  | sites m, sites n => m.keys.any n.contains
  | top, sites n => !n.isEmpty
  | sites m, top => !m.isEmpty
  | top, top => true

/-- Whether two pointers refer to the same single cell. -/
def mustAlias (p q : PointsTo) : Bool :=
  match p.strongTarget?, q.strongTarget? with
  | some k, some l => k = l
  | _, _ => false

/-! ## Lattice -/

/-- The sites of either set, as weak as they get. -/
def union (m n : FinMap SiteKey Strength) : FinMap SiteKey Strength :=
  n.entries.foldl (fun map e => addSite map ⟨e.1, e.2⟩) m

/-- The sites of both sets, as strong as they get. -/
def intersection (m n : FinMap SiteKey Strength) : FinMap SiteKey Strength :=
  m.filterMap fun key strength => (n.get? key).map strength.stronger

/-- Whether each site of the first set is in the second one, at least as weak. -/
def subset (m n : FinMap SiteKey Strength) : Bool :=
  m.entries.all fun e => match n.get? e.1 with
    | some strength => e.2.le strength
    | none => false

instance : AbstractLattice PointsTo where
  top := top
  bottom := .bottom
  joinProper
    | sites m, sites n => .ok (sites (union m n))
    | _, _ => .ok top
  meetProper
    | sites m, sites n => .ok (sites (intersection m n))
    | top, q => .ok q
    | p, top => .ok p
  leqProper
    | sites m, sites n => .ok (subset m n)
    | _, top => .ok true
    | top, _ => .ok false

end PointsTo

end AbstractDomains
