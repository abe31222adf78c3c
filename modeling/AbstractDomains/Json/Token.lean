import AbstractDomains.Json.Basic
import AbstractDomains.Text.Surrogate

/-!
# JSON tokens

A JSON text is a sequence of tokens: punctuation and scalar values, with blanks between them.
`Token.scan?` splits a text into tokens one character at a time and `Token.text` writes a token.
-/

namespace AbstractDomains.Json

/-- Punctuation, or a value that is neither an array nor an object. -/
inductive Token where
  | openArray
  | closeArray
  | openObject
  | closeObject
  | comma
  | colon
  | scalar (value : Json)

namespace Token

/-! ## Words -/

/-- The digits of an integer part: a single one, or several of which the first is not zero. -/
def isIntegerPart (digits : List Char) : Bool :=
  match digits with
  | [] => false
  | [_] => true
  | first :: _ => first != '0'

/-- An exponent mark, perhaps a sign, and at least one digit; or nothing. -/
def isExponent (chars : List Char) : Bool :=
  match chars with
  | [] => true
  | mark :: rest =>
    let digits := match rest with
      | '+' :: digits => digits
      | '-' :: digits => digits
      | digits => digits
    (mark = 'e' || mark = 'E') && !digits.isEmpty && digits.all Char.isDigit

/-- What may follow the integer part: perhaps a point with digits, perhaps an exponent. -/
def isFractionalPart (chars : List Char) : Bool :=
  match chars with
  | '.' :: rest => !(rest.takeWhile Char.isDigit).isEmpty && isExponent (rest.dropWhile Char.isDigit)
  | rest => isExponent rest

/-- A number without its sign: nothing but digits has a value. -/
def unsigned? (chars : List Char) : Option (Option Nat) :=
  let digits := chars.takeWhile Char.isDigit
  let rest := chars.dropWhile Char.isDigit
  if isIntegerPart digits && isFractionalPart rest then
    some (if rest.isEmpty then some (Nat.ofDigitChars 10 digits 0) else none)
  else none

/-- A number; `-0` has no integer value. -/
def number? (chars : List Char) : Option Json :=
  match chars with
  | '-' :: rest => (unsigned? rest).map fun value =>
    number (match value with
      | some (n + 1) => some (Int.negSucc n)
      | _ => none)
  | chars => (unsigned? chars).map fun value => number (value.map Int.ofNat)

/-- The value a bare word stands for. -/
def word? (chars : List Char) : Option Json :=
  if chars = ['n', 'u', 'l', 'l'] then some null
  else if chars = ['t', 'r', 'u', 'e'] then some (bool true)
  else if chars = ['f', 'a', 'l', 's', 'e'] then some (bool false)
  else number? chars

/-! ## Scanning -/

/-- Where a scan stands within a text; what is read so far of a token is kept from last to first. -/
inductive Position where
  | between
  | inWord (chars : List Char)
  | inString (units : List Nat)
  | inEscape (units : List Nat)
  /-- Within the four digits of a code point: how many are missing, and the value so far. -/
  | inCode (missing value : Nat) (units : List Nat)

/-- The tokens read so far, from last to first, and the position within the text. -/
structure Scan where
  tokens : List Token
  position : Position

/-- The token a punctuation character stands for. -/
def punctuation? : Char → Option Token
  | '[' => some openArray
  | ']' => some closeArray
  | '\x7b' => some openObject
  | '\x7d' => some closeObject
  | ',' => some comma
  | ':' => some colon
  | _ => none

/-- Space, tab, line feed and carriage return separate tokens. -/
def isBlank (c : Char) : Bool :=
  c = ' ' || c = '\t' || c = '\n' || c = '\r'

/-- The code point that a character after a backslash stands for. -/
def escaped? : Char → Option Nat
  | '"' => some 0x22
  | '\\' => some 0x5c
  | '/' => some 0x2f
  | 'b' => some 0x08
  | 'f' => some 0x0c
  | 'n' => some 0x0a
  | 'r' => some 0x0d
  | 't' => some 0x09
  | _ => none

/-- The value of a hexadecimal digit of either case. -/
def hexDigit? (c : Char) : Option Nat :=
  if '0' ≤ c && c ≤ '9' then some (c.toNat - '0'.toNat)
  else if 'a' ≤ c && c ≤ 'f' then some (c.toNat - 'a'.toNat + 10)
  else if 'A' ≤ c && c ≤ 'F' then some (c.toNat - 'A'.toNat + 10)
  else none

/-- A character outside every token. -/
def startToken (tokens : List Token) (c : Char) : Scan :=
  if isBlank c then ⟨tokens, .between⟩
  else if c = '"' then ⟨tokens, .inString []⟩
  else match punctuation? c with
    | some token => ⟨token :: tokens, .between⟩
    | none => ⟨tokens, .inWord [c]⟩

/-- One more character of the text. -/
def Scan.step (scan : Scan) (c : Char) : Option Scan :=
  match scan.position with
  | .between => some (startToken scan.tokens c)
  | .inWord chars =>
    if isBlank c || c = '"' || (punctuation? c).isSome then
      (word? chars.reverse).map fun value => startToken (scalar value :: scan.tokens) c
    else some ⟨scan.tokens, .inWord (c :: chars)⟩
  | .inString units =>
    if c = '"' then
      some ⟨scalar (string (Text.ofReversedUnits? units)) :: scan.tokens, .between⟩
    else if c = '\\' then some ⟨scan.tokens, .inEscape units⟩
    else if c < ' ' then none
    else some ⟨scan.tokens, .inString (c.toNat :: units)⟩
  | .inEscape units =>
    if c = 'u' then some ⟨scan.tokens, .inCode 4 0 units⟩
    else (escaped? c).map fun unit => ⟨scan.tokens, .inString (unit :: units)⟩
  | .inCode missing value units => (hexDigit? c).map fun digit =>
    let value := value * 16 + digit
    if missing ≤ 1 then ⟨scan.tokens, .inString (value :: units)⟩
    else ⟨scan.tokens, .inCode (missing - 1) value units⟩

/-- The tokens of a text that ends here. -/
def Scan.finish (scan : Scan) : Option (List Token) :=
  match scan.position with
  | .between => some scan.tokens.reverse
  | .inWord chars => (word? chars.reverse).map fun value =>
    (scalar value :: scan.tokens).reverse
  | _ => none

/-- The tokens of a text; none if some part of it is no token. -/
def scan? (text : String) : Option (List Token) :=
  (text.toList.foldlM Scan.step ⟨[], .between⟩).bind Scan.finish

/-! ## Writing -/

/-- How a character is written within a string. -/
def escapeChar (c : Char) : String :=
  match c with
  | '"' => "\\\""
  | '\\' => "\\\\"
  | '\n' => "\\n"
  | '\r' => "\\r"
  | '\t' => "\\t"
  | '\x08' => "\\b"
  | '\x0c' => "\\f"
  | c =>
    if c < ' ' then
      "\\u00" ++ String.ofList [Nat.digitChar (c.toNat / 16), Nat.digitChar (c.toNat % 16)]
    else c.toString

/-- A scalar as text; a missing value is written so that it reads as missing again. -/
def scalarText : Json → String
  | null => "null"
  | bool value => if value then "true" else "false"
  | number (some n) => toString n
  | number none => "-0"
  | string (some s) => "\"" ++ String.join (s.toList.map escapeChar) ++ "\""
  | string none => "\"\\ud800\""
  | array _ => ""
  | object _ => ""

/-- A token as text. -/
def text : Token → String
  | openArray => "["
  | closeArray => "]"
  | openObject => "\x7b"
  | closeObject => "\x7d"
  | comma => ","
  | colon => ":"
  | scalar value => scalarText value

end Token

end AbstractDomains.Json
