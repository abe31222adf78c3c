import AbstractDomains.Json.Token

/-!
# Writing JSON

`Json.tokens` spells a document as tokens and `Json.render` writes it as compact text.
-/

namespace AbstractDomains.Json

mutual

/-- The tokens of a document. -/
def tokens : Json → List Token
  | array items => .openArray :: itemTokens items
  | object members => .openObject :: memberTokens members
  | document => [.scalar document]

/-- The tokens of the items of an array, with the closing bracket. -/
def itemTokens : List Json → List Token
  | [] => [.closeArray]
  | [item] => item.tokens ++ [.closeArray]
  | item :: rest => item.tokens ++ .comma :: itemTokens rest

/-- The tokens of the members of an object, with the closing brace. -/
def memberTokens : List (Option String × Json) → List Token
  | [] => [.closeObject]
  | [(name, value)] => .scalar (.string name) :: .colon :: value.tokens ++ [.closeObject]
  | (name, value) :: rest =>
    .scalar (.string name) :: .colon :: value.tokens ++ .comma :: memberTokens rest

end

/-- The document as text without blanks. -/
def render (document : Json) : String :=
  String.join (document.tokens.map Token.text)

end AbstractDomains.Json
