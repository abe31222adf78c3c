/-!
# Keywords

A keyword type is a finite enumeration whose members have one spelling each. `Keyword.all` lists
the members in their order, `Keyword.word` spells one and `Keyword.ofWord?` reads a spelling back.

Results:
* `Keyword.ofWord?_word`: a spelling reads back as the member it was written for.
* `Keyword.transOrd`, `Keyword.lawfulEqOrd`: comparing positions in the list is a linear order.
-/

namespace AbstractDomains

/-- A finite enumeration with a spelling for each member. -/
class Keyword (α : Type) [DecidableEq α] where
  /-- The members in their order. -/
  all : List α
  /-- How a member is spelled. -/
  word : α → String
  /-- Every member is listed, and no two share a spelling. -/
  find?_word : ∀ a, all.find? (fun b => word b == word a) = some a

namespace Keyword

variable {α : Type} [DecidableEq α] [Keyword α]

/-- The member a word spells. -/
def ofWord? (w : String) : Option α :=
  all.find? (fun a => word a == w)

theorem ofWord?_word (a : α) : ofWord? (word a) = some a :=
  find?_word a

theorem mem_all (a : α) : a ∈ all (α := α) :=
  List.mem_of_find?_eq_some (find?_word a)

/-- The position of a member in the list. -/
def rank (a : α) : Nat :=
  (all (α := α)).idxOf a

theorem rank_injective {a b : α} (h : rank a = rank b) : a = b := by
  have ha := List.getElem_idxOf (List.idxOf_lt_length_of_mem (mem_all a))
  have hb := List.getElem_idxOf (List.idxOf_lt_length_of_mem (mem_all b))
  simp only [rank] at h
  rw [← ha, ← hb]
  simp only [h]

/-- Members in the order of the list. -/
abbrev ord : Ord α where
  compare := compareOn rank

theorem transOrd : @Std.TransOrd α ord :=
  inferInstanceAs (Std.TransCmp (compareOn (rank (α := α))))

theorem lawfulEqOrd : @Std.LawfulEqOrd α ord :=
  let _ : Ord α := ord
  { compare_self := Nat.compare_eq_eq.2 rfl
    eq_of_compare := fun h => rank_injective (Nat.compare_eq_eq.1 h) }

end Keyword

end AbstractDomains
