import AbstractDomains.Json.Token

/-!
# Reading JSON

`Json.ofTokens?` builds a document from its tokens with a stack of the arrays and objects that are
still open, so that documents may nest to any depth; `Json.parse?` reads a text.
-/

namespace AbstractDomains.Json

/-- An array or object that is still open, with what it holds so far, from last to first. -/
inductive Frame where
  | array (items : List Json)
  /-- The value of the member with this name is being read. -/
  | object (members : List (Option String × Json)) (name : Option String)

/-- What has been read so far, and hence what may come next. -/
inductive Reading where
  /-- A value has to come. -/
  | value (stack : List Frame)
  /-- An array has been opened. -/
  | firstItem (stack : List Frame)
  /-- An item is complete. -/
  | afterItem (items : List Json) (stack : List Frame)
  /-- An object has been opened. -/
  | firstMember (stack : List Frame)
  /-- The name of another member has to come. -/
  | nextName (members : List (Option String × Json)) (stack : List Frame)
  /-- A name has been read. -/
  | afterName (members : List (Option String × Json)) (name : Option String) (stack : List Frame)
  /-- A member is complete. -/
  | afterMember (members : List (Option String × Json)) (stack : List Frame)
  /-- The document is complete. -/
  | complete (document : Json)

namespace Reading

/-- A value is complete. -/
def close (stack : List Frame) (document : Json) : Reading :=
  match stack with
  | [] => complete document
  | .array items :: stack => afterItem (document :: items) stack
  | .object members name :: stack => afterMember ((name, document) :: members) stack

/-- The first token of a value. -/
def start? (stack : List Frame) : Token → Option Reading
  | .scalar document => some (close stack document)
  | .openArray => some (firstItem stack)
  | .openObject => some (firstMember stack)
  | _ => none

/-- One more token. -/
def step : Reading → Token → Option Reading
  | value stack, token => start? stack token
  | firstItem stack, .closeArray => some (close stack (.array []))
  | firstItem stack, token => start? (.array [] :: stack) token
  | afterItem items stack, .comma => some (value (.array items :: stack))
  | afterItem items stack, .closeArray => some (close stack (.array items.reverse))
  | firstMember stack, .closeObject => some (close stack (.object []))
  | firstMember stack, .scalar (.string name) => some (afterName [] name stack)
  | nextName members stack, .scalar (.string name) => some (afterName members name stack)
  | afterName members name stack, .colon => some (value (.object members name :: stack))
  | afterMember members stack, .comma => some (nextName members stack)
  | afterMember members stack, .closeObject => some (close stack (.object members.reverse))
  | _, _ => none

end Reading

/-- The document that tokens spell. -/
def ofTokens? (tokens : List Token) : Option Json :=
  match tokens.foldlM Reading.step (.value []) with
  | some (.complete document) => some document
  | _ => none

/-- The document that a text holds, with nothing but blanks around it. -/
def parse? (text : String) : Option Json :=
  (Token.scan? text).bind ofTokens?

end AbstractDomains.Json
