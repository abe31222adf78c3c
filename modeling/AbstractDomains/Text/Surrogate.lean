/-!
# Surrogate pairs

A character beyond the basic plane may be written as two code points, a high surrogate and a low
one. `Text.ofReversedUnits?` joins such pairs and refuses a surrogate that stands alone.
-/

namespace AbstractDomains.Text

/-- Whether a code point is the first half of a pair. -/
def isHighSurrogate (u : Nat) : Bool :=
  0xd800 ≤ u && u < 0xdc00

/-- Whether a code point is the second half of a pair. -/
def isLowSurrogate (u : Nat) : Bool :=
  0xdc00 ≤ u && u < 0xe000

/-- The character a pair of surrogates stands for. -/
def joinSurrogates (high low : Nat) : Char :=
  Char.ofNat (0x10000 + (high - 0xd800) * 0x400 + (low - 0xdc00))

/--
The characters that code points, given from last to first, stand for in front of `later`; none if a
surrogate has no partner.
-/
def prependUnits? : List Nat → List Char → Option (List Char)
  | [], later => some later
  | low :: high :: earlier, later =>
    if isLowSurrogate low then
      if isHighSurrogate high then prependUnits? earlier (joinSurrogates high low :: later) else none
    else if isHighSurrogate low then none
    else prependUnits? (high :: earlier) (Char.ofNat low :: later)
  | [unit], later =>
    if isLowSurrogate unit || isHighSurrogate unit then none else some (Char.ofNat unit :: later)

/-- The string that code points, given from last to first, stand for. -/
def ofReversedUnits? (units : List Nat) : Option String :=
  (prependUnits? units []).map String.ofList

end AbstractDomains.Text
