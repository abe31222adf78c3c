/-!
# JSON values

`Json` is a JSON document as far as its reader needs it: a number that is not written as an integer
and a string that is not Unicode text are kept as a place without a value, so that they can be
skipped where they do not matter.
-/

namespace AbstractDomains

/-- A JSON document. -/
inductive Json where
  | null
  | bool (value : Bool)
  /-- The value is missing if a fraction, an exponent or the form `-0` is written. -/
  | number (value : Option Int)
  /-- The text is missing if an escaped surrogate has no partner. -/
  | string (text : Option String)
  | array (items : List Json)
  /-- The members in order; a name can occur more than once. -/
  | object (members : List (Option String × Json))

namespace Json

/-- An integer. -/
def ofInt (n : Int) : Json :=
  number (some n)

/-- A string. -/
def ofString (s : String) : Json :=
  string (some s)

/-- An object with the given names. -/
def ofMembers (members : List (String × Json)) : Json :=
  object (members.map fun (name, value) => (some name, value))

/-! ## Nesting -/

mutual

/-- How deep arrays and objects nest. -/
def depth : Json → Nat
  | array items => depthItems items + 1
  | object members => depthMembers members + 1
  | _ => 0

/-- How deep the items of an array nest. -/
def depthItems : List Json → Nat
  | [] => 0
  | item :: rest => max item.depth (depthItems rest)

/-- How deep the members of an object nest. -/
def depthMembers : List (Option String × Json) → Nat
  | [] => 0
  | (_, value) :: rest => max value.depth (depthMembers rest)

end

/-! ## Parts -/

/-- The integer, if the document is one. -/
def int? : Json → Option Int
  | number value => value
  | _ => none

/-- The truth value, if the document is one. -/
def bool? : Json → Option Bool
  | bool value => some value
  | _ => none

/-- The text, if the document is a string that has one. -/
def text? : Json → Option String
  | string text => text
  | _ => none

/-- The items, if the document is an array. -/
def items? : Json → Option (List Json)
  | array items => some items
  | _ => none

/-- The first member of that name. -/
def get? (name : String) : Json → Option Json
  | object members => (members.find? fun m => m.1 == some name).map (·.2)
  | _ => none

end Json

end AbstractDomains
