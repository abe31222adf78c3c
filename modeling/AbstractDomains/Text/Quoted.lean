import AbstractDomains.Text.Unprintable

/-!
# Quoted text

`Text.quote` displays a string between double quotes so that every character can be seen.
-/

namespace AbstractDomains.Text

/-- The digits of a number in base sixteen. -/
def hexadecimal (n : Nat) : String :=
  String.ofList (Nat.toDigits 16 n)

/-- How one character is displayed between quotes: unprintable ones by their code point. -/
def quoteChar (c : Char) : String :=
  match c with
  | '\n' => "\\n"
  | '\r' => "\\r"
  | '\t' => "\\t"
  | '\x00' => "\\0"
  | '"' => "\\\""
  | '\\' => "\\\\"
  | c => if isUnprintable c then "\\u\x7b" ++ hexadecimal c.toNat ++ "\x7d" else c.toString

/-- The string between double quotes. -/
def quote (s : String) : String :=
  "\"" ++ String.join (s.toList.map quoteChar) ++ "\""

end AbstractDomains.Text
