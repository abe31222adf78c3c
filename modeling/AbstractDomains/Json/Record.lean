import AbstractDomains.Json.Basic
import AbstractDomains.Keyword

/-!
# Records, variants and keywords in JSON

The spellings a typed value may have in a JSON document. A record is an object with one member for
each field, in any order and among others, or an array of its fields in order. A variant without
content is its name or an object from its name to null; one with content is an object from its name
to the content. Readers take the number of arrays and objects that may still be opened.
-/

namespace AbstractDomains.Json

/-- The values of the members of that name. -/
def valuesOf (name : String) (members : List (Option String × Json)) : List Json :=
  (members.filter fun m => m.1 == some name).map (·.2)

/-- The value of the only member of that name, if there is one; refuses a repeated name. -/
def field? (members : List (Option String × Json)) (name : String) : Option (Option Json) :=
  match valuesOf name members with
  | [] => some none
  | [value] => some (some value)
  | _ => none

/-- The fields of a record, each with its value if it has one; every name has to be text. -/
def record? (names : List String) : Json → Option (List (Option Json))
  | object members => if members.all (·.1.isSome) then names.mapM (field? members) else none
  | array items =>
    if items.length ≤ names.length then
      some (items.map some ++ List.replicate (names.length - items.length) none)
    else none
  | _ => none

/-- The name and the content of a variant that has content. -/
def variant? : Json → Option (String × Json)
  | object [(some name, content)] => some (name, content)
  | _ => none

/-- The name of a variant without content, if `limit` allows for its spelling. -/
def unit? (limit : Nat) : Json → Option String
  | string name => name
  | object [(some name, null)] => if limit = 0 then none else some name
  | _ => none

/-- The member of an enumeration that a document names. -/
def keyword? {α : Type} [DecidableEq α] [Keyword α] (limit : Nat) (document : Json) : Option α :=
  (unit? limit document).bind Keyword.ofWord?

/-- A member of an enumeration, by its name. -/
def ofKeyword {α : Type} [DecidableEq α] [Keyword α] (a : α) : Json :=
  ofString (Keyword.word a)

/-- The integer, if it fits into 64 bits with sign. -/
def int64? (document : Json) : Option Int64 :=
  document.int?.bind fun n =>
    if Int64.minValue.toInt ≤ n ∧ n ≤ Int64.maxValue.toInt then some (Int64.ofInt n) else none

end AbstractDomains.Json
