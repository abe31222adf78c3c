import AbstractDomains.FinMap
import AbstractDomains.Lattice

/-!
# Pointwise lattices

`Pointwise κ α` describes states that hold a value under each key: either no state at all, or a
finite map of what is known of some keys. A key that is not in the map can hold anything.

`Pointwise.read` is what is known of a key and `Pointwise.set` replaces it. The lattice operations
work key by key; as soon as a key can hold nothing there is no state.
-/

namespace AbstractDomains

/-- No state, or what the states hold under some keys. -/
inductive Pointwise (κ α : Type) [Ord κ] where
  | bottom
  | entries (map : FinMap κ α)

namespace Pointwise

variable {κ α : Type} [Ord κ]

instance [DecidableEq κ] [DecidableEq α] : DecidableEq (Pointwise κ α)
  | bottom, bottom => isTrue rfl
  | entries m, entries n =>
    decidable_of_iff (m = n) ⟨congrArg entries, Pointwise.entries.inj⟩
  | bottom, entries _ => isFalse nofun
  | entries _, bottom => isFalse nofun

/-- Every state. -/
protected def top : Pointwise κ α :=
  entries .empty

/-- The value in the map under a key. -/
def get? : Pointwise κ α → κ → Option α
  | bottom, _ => none
  | entries m, k => m.get? k

/-- Without knowledge of a key. -/
def forget : Pointwise κ α → κ → Pointwise κ α
  | bottom, _ => bottom
  | entries m, k => entries (m.erase k)

instance [ToString κ] [ToString α] : ToString (Pointwise κ α) where
  toString
    | bottom => "⊥"
    | entries m => "[" ++ ", ".intercalate (m.entries.map fun e => s!"{e.1} -> {e.2}") ++ "]"

variable [DecidableEq κ] [DecidableEq α] [AbstractLattice α]

/-- What is known of a key. -/
def read : Pointwise κ α → κ → α
  | bottom, _ => AbstractDomains.bottom
  | entries m, k => (m.get? k).getD AbstractDomains.top

/-- Whether no key is restricted. -/
protected def isTop : Pointwise κ α → Bool
  | bottom => false
  | entries m => m.values.all AbstractDomains.isTop

/-- The order between maps: every key of the greater one has to hold less in the smaller one. -/
def leqEntries (m n : FinMap κ α) : Analysis Bool :=
  n.entries.allM fun e => match m.get? e.1 with
    | some v => leq v e.2
    | none => .ok (AbstractDomains.isTop e.2)

/-- The values below `w` that a key can hold, given what is known of it. -/
def meetEntry (known : Option α) (w : α) : Analysis α :=
  match known with
  | some v => meet v w
  | none => .ok w

variable [Std.TransOrd κ]

/-- With another value under a key; a key that can hold nothing leaves no state. -/
def set (s : Pointwise κ α) (k : κ) (v : α) : Pointwise κ α :=
  match s with
  | bottom => bottom
  | entries m =>
    if AbstractDomains.isBottom v then bottom
    else if AbstractDomains.isTop v then entries (m.erase k)
    else entries (m.insert k v)

/-- The keys of both maps, each with the result of an operation that does not go down. -/
def combine (op : α → α → Analysis α) : Pointwise κ α → Pointwise κ α → Analysis (Pointwise κ α)
  | entries m, entries n => do
    let kept ← m.filterMapM fun k v => match n.get? k with
      | none => return none
      | some w => do
        let x ← op v w
        return if AbstractDomains.isTop x then none else some x
    return entries kept
  | _, _ => .ok bottom

/-- The states that hold a value below `w` under a key. -/
def restrict (s : Pointwise κ α) (k : κ) (w : α) : Analysis (Pointwise κ α) :=
  match s with
  | bottom => .ok bottom
  | entries m => do
    let v ← meetEntry (m.get? k) w
    return if AbstractDomains.isBottom v then bottom else entries (m.insert k v)

instance : AbstractLattice (Pointwise κ α) where
  top := .top
  bottom := bottom
  isTop := Pointwise.isTop
  joinProper := combine join
  widenProper := combine widen
  meetProper
    | _, bottom => .ok bottom
    | s, entries n => n.entries.foldlM (fun s e => s.restrict e.1 e.2) s
  leqProper
    | bottom, _ => .ok true
    | entries _, bottom => .ok false
    | entries m, entries n => leqEntries m n

end Pointwise

end AbstractDomains
