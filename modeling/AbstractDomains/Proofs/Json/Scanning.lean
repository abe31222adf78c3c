import Mathlib.Data.List.TakeWhile
import AbstractDomains.Json.Printer

/-!
# Scanning what is written

The text of a document is split again into the tokens it was written as. A word has no end of its
own, it ends where a character that is no part of one follows. Words never follow each other without
punctuation between them, so a scan that is `Settled` has read all its tokens, even if the last one
could still go on.

Results:
* `Token.unsigned?_toDigits`, `Token.foldlM_escapeChar`: digits and escaped characters.
* `Token.spells_scalar`: every scalar is scanned as itself.
* `scan?_render`: the text of a document is scanned as its tokens.
-/

namespace AbstractDomains.Json

namespace Token

/-! ## Text that spells tokens -/

/-- A character that is no part of a word. -/
def isDelimiter (c : Char) : Bool :=
  isBlank c || c = '"' || (punctuation? c).isSome

/-- A scan that has read these tokens, given from last to first, if no word goes on. -/
structure Scan.Settled (scan : Scan) (tokens : List Token) : Prop where
  finish : scan.finish = some tokens.reverse
  step : ∀ c, isDelimiter c = true → scan.step c = some (startToken tokens c)

/-- A text that adds these tokens where one can start. -/
def Spells (text : List Char) (tokens : List Token) : Prop :=
  ∀ before, ∃ scan, text.foldlM Scan.step ⟨before, .between⟩ = some scan ∧
    scan.Settled (tokens.reverse ++ before)

variable {c : Char} {text text' word : List Char} {token : Token}
  {before tokens tokens' : List Token} {value : Json} {units : List Nat}

theorem settled_between (tokens : List Token) : Scan.Settled ⟨tokens, .between⟩ tokens :=
  ⟨rfl, fun _ _ => rfl⟩

theorem settled_inWord (h : word? word = some value) :
    Scan.Settled ⟨before, .inWord word.reverse⟩ (scalar value :: before) := by
  constructor
  · simp [Scan.finish, h]
  · intro c hc
    unfold isDelimiter at hc
    simp [Scan.step, hc, h]

theorem startToken_punctuation (h : punctuation? c = some token) :
    startToken tokens c = ⟨token :: tokens, .between⟩ := by
  unfold punctuation? at h
  split at h <;> cases h <;> rfl

theorem spells_nil : Spells [] [] :=
  fun before => ⟨_, rfl, settled_between before⟩

/-- Punctuation separates texts. -/
theorem Spells.punctuation (h : Spells text tokens) (hc : punctuation? c = some token)
    (h' : Spells text' tokens') : Spells (text ++ c :: text') (tokens ++ token :: tokens') := by
  intro before
  obtain ⟨scan, hscan, hsettled⟩ := h before
  obtain ⟨scan', hscan', hsettled'⟩ := h' (token :: (tokens.reverse ++ before))
  have hstep : scan.step c = some ⟨token :: (tokens.reverse ++ before), .between⟩ := by
    rw [hsettled.step c (by simp [isDelimiter, hc]), startToken_punctuation hc]
  refine ⟨scan', ?_, by simpa using hsettled'⟩
  simp only [List.foldlM_append, List.foldlM_cons, hscan, hstep, Option.bind_eq_bind,
    Option.bind_some]
  exact hscan'

/-! ## Words -/

theorem foldlM_inWord {read : List Char} (h : text.any isDelimiter = false) :
    text.foldlM Scan.step ⟨before, .inWord read⟩ =
      some ⟨before, .inWord (text.reverse ++ read)⟩ := by
  induction text generalizing read with
  | nil => rfl
  | cons c rest ih =>
    obtain ⟨hc, hrest⟩ := Bool.or_eq_false_iff.mp h
    unfold isDelimiter at hc
    have hstep : Scan.step ⟨before, .inWord read⟩ c = some ⟨before, .inWord (c :: read)⟩ := by
      simp [Scan.step, hc]
    rw [List.foldlM_cons, hstep, Option.bind_eq_bind, Option.bind_some, ih hrest]
    simp

theorem spells_word (hword : word.any isDelimiter = false) (h : word? word = some value) :
    Spells word [scalar value] := by
  intro before
  refine ⟨⟨before, .inWord word.reverse⟩, ?_, settled_inWord h⟩
  cases word with
  | nil => cases h
  | cons c rest =>
    obtain ⟨hc, hrest⟩ := Bool.or_eq_false_iff.mp hword
    simp only [isDelimiter, Bool.or_eq_false_iff, decide_eq_false_iff_not,
      Option.isSome_eq_false_iff, Option.isNone_iff_eq_none] at hc
    obtain ⟨⟨hblank, hquote⟩, hpunctuation⟩ := hc
    have hstart : Scan.step ⟨before, .between⟩ c = some ⟨before, .inWord [c]⟩ := by
      simp [Scan.step, startToken, hblank, hquote, hpunctuation]
    rw [List.foldlM_cons, hstart, Option.bind_eq_bind, Option.bind_some, foldlM_inWord hrest]
    simp

/-! ## Numbers -/

/-- The first digit of a number that is not zero is not zero. -/
theorem exists_toDigits_eq_cons {n : Nat} (h : 0 < n) :
    ∃ c rest, Nat.toDigits 10 n = c :: rest ∧ c ≠ '0' := by
  induction n using Nat.strongRecOn with
  | ind n ih =>
    by_cases hlt : n < 10
    · rw [Nat.toDigits_of_lt_base hlt]
      exact ⟨n.digitChar, [], rfl, by simp [Nat.ne_of_gt h]⟩
    · obtain ⟨c, rest, hdigits, hc⟩ := ih (n / 10) (by omega) (by omega)
      rw [Nat.toDigits_of_base_le (by decide) (by omega), hdigits]
      exact ⟨c, _, rfl, hc⟩

theorem isIntegerPart_toDigits (n : Nat) : isIntegerPart (Nat.toDigits 10 n) = true := by
  by_cases h : n = 0
  · subst h
    rfl
  · obtain ⟨c, rest, hdigits, hc⟩ := exists_toDigits_eq_cons (Nat.pos_of_ne_zero h)
    rw [hdigits]
    cases rest with
    | nil => rfl
    | cons d rest => simpa [isIntegerPart] using hc

/-- The digits of a number are read as the number. -/
theorem unsigned?_toDigits (n : Nat) : unsigned? (Nat.toDigits 10 n) = some (some n) := by
  have hdigits : ∀ c ∈ Nat.toDigits 10 n, c.isDigit = true :=
    fun c hc => Nat.isDigit_of_mem_toDigits (by decide) (by decide) hc
  have htake : (Nat.toDigits 10 n).takeWhile Char.isDigit = Nat.toDigits 10 n :=
    List.takeWhile_eq_self_iff.mpr hdigits
  have hdrop : (Nat.toDigits 10 n).dropWhile Char.isDigit = [] :=
    List.dropWhile_eq_nil_iff.mpr hdigits
  simp [unsigned?, htake, hdrop, isIntegerPart_toDigits, isFractionalPart, isExponent,
    Nat.ofDigitChars_ten_toDigits]

theorem isDigit_of_isDelimiter (h : isDelimiter c = true) : c.isDigit = false := by
  simp only [isDelimiter, isBlank, Bool.or_eq_true, decide_eq_true_eq] at h
  rcases h with ((((rfl | rfl) | rfl) | rfl) | rfl) | h
  case inr =>
    unfold punctuation? at h
    split at h <;> first | rfl | cases h
  all_goals rfl

theorem isDelimiter_of_isDigit (h : c.isDigit = true) : isDelimiter c = false := by
  by_contra hc
  rw [isDigit_of_isDelimiter (Bool.not_eq_false _ ▸ hc)] at h
  cases h

theorem number?_of_isDigit (h : ∀ c ∈ text, c.isDigit = true) :
    number? text = (unsigned? text).map fun value => number (value.map Int.ofNat) := by
  unfold number?
  split
  · exact absurd (h '-' List.mem_cons_self) (by decide)
  · rfl

theorem word?_eq_number? (h : ∀ c ∈ text, c ≠ 'u' ∧ c ≠ 's') : word? text = number? text := by
  unfold word?
  rw [if_neg, if_neg, if_neg]
  · rintro rfl
    exact (h 's' (by decide)).2 rfl
  · rintro rfl
    exact (h 'u' (by decide)).1 rfl
  · rintro rfl
    exact (h 'u' (by decide)).1 rfl

/-- Digits, perhaps after a sign, are a word for what they are as a number. -/
theorem spells_number (h : ∀ c ∈ text, c.isDigit = true ∨ c = '-')
    (hvalue : number? text = some value) : Spells text [scalar value] := by
  have hword : text.any isDelimiter = false := by
    rw [List.any_eq_false]
    intro c hc
    rcases h c hc with hdigit | rfl
    · simp [isDelimiter_of_isDigit hdigit]
    · decide
  refine spells_word hword ?_
  rw [word?_eq_number? fun c hc => ?_, hvalue]
  rcases h c hc with hdigit | rfl
  · constructor <;> rintro rfl <;> cases hdigit
  · decide

/-- Every integer is read back. -/
theorem spells_int (n : Int) : Spells (toString n).toList [scalar (number (some n))] := by
  have hdigits : ∀ m, ∀ c ∈ Nat.toDigits 10 m, c.isDigit = true :=
    fun m c hc => Nat.isDigit_of_mem_toDigits (by decide) (by decide) hc
  cases n with
  | ofNat m =>
    have htext : (toString (Int.ofNat m)).toList = Nat.toDigits 10 m := Nat.toList_repr
    rw [htext]
    refine spells_number (fun c hc => .inl (hdigits m c hc)) ?_
    rw [number?_of_isDigit (hdigits m), unsigned?_toDigits]
    rfl
  | negSucc m =>
    have htext : (toString (Int.negSucc m)).toList = '-' :: Nat.toDigits 10 (m + 1) := by
      show ("-" ++ Nat.repr (m + 1)).toList = _
      rw [String.toList_append, Nat.toList_repr]
      rfl
    rw [htext]
    refine spells_number (fun c hc => ?_) ?_
    · rcases List.mem_cons.mp hc with rfl | hc
      · exact .inr rfl
      · exact .inl (hdigits _ c hc)
    · simp [number?, unsigned?_toDigits]

/-! ## Strings -/

theorem hexDigit?_digitChar : ∀ n < 16, hexDigit? (Nat.digitChar n) = some n := by
  decide

/-- A character is read as its code point, however it is written. -/
theorem foldlM_escapeChar (c : Char) :
    (escapeChar c).toList.foldlM Scan.step ⟨before, .inString units⟩ =
      some ⟨before, .inString (c.toNat :: units)⟩ := by
  unfold escapeChar
  split
  · rfl
  · rfl
  · rfl
  · rfl
  · rfl
  · rfl
  · rfl
  · rename_i hquote hbackslash _ _ _ _ _
    replace hquote : c ≠ '"' := hquote
    replace hbackslash : c ≠ '\\' := hbackslash
    split
    · rename_i hcontrol
      have hlt : c.toNat < 32 := hcontrol
      have hhigh : hexDigit? (Nat.digitChar (c.toNat / 16)) = some (c.toNat / 16) :=
        hexDigit?_digitChar _ (by omega)
      have hlow : hexDigit? (Nat.digitChar (c.toNat % 16)) = some (c.toNat % 16) :=
        hexDigit?_digitChar _ (by omega)
      have hcode : c.toNat / 16 * 16 + c.toNat % 16 = c.toNat := by omega
      have hprefix : ['\\', 'u', '0', '0'].foldlM Scan.step ⟨before, .inString units⟩ =
          some ⟨before, .inCode 2 0 units⟩ := rfl
      rw [String.toList_append, String.toList_ofList, List.foldlM_append, hprefix]
      simp [Scan.step, hhigh, hlow, hcode]
    · rename_i hcontrol
      simp [Scan.step, hquote, hbackslash, hcontrol]

theorem foldlM_escapeChars (chars : List Char) :
    (chars.flatMap fun c => (escapeChar c).toList).foldlM Scan.step ⟨before, .inString units⟩ =
      some ⟨before, .inString ((chars.map Char.toNat).reverse ++ units)⟩ := by
  induction chars generalizing units with
  | nil => rfl
  | cons c rest ih =>
    rw [List.flatMap_cons, List.foldlM_append, foldlM_escapeChar, Option.bind_eq_bind,
      Option.bind_some, ih]
    simp

/-- The code point of a character is not a surrogate. -/
theorem not_isSurrogate (c : Char) :
    Text.isLowSurrogate c.toNat = false ∧ Text.isHighSurrogate c.toNat = false := by
  have hvalid : c.toNat < 0xd800 ∨ 0xdfff < c.toNat ∧ c.toNat < 0x110000 := c.valid
  simp only [Text.isLowSurrogate, Text.isHighSurrogate, Bool.and_eq_false_iff,
    decide_eq_false_iff_not]
  omega

theorem prependUnits?_toNat (chars later : List Char) :
    Text.prependUnits? (chars.map Char.toNat) later = some (chars.reverse ++ later) := by
  induction chars generalizing later with
  | nil => rfl
  | cons c rest ih =>
    obtain ⟨hlow, hhigh⟩ := not_isSurrogate c
    cases rest with
    | nil => simp [Text.prependUnits?, hlow, hhigh]
    | cons d rest =>
      have hrest := ih (c :: later)
      rw [List.map_cons] at hrest
      simp [Text.prependUnits?, hlow, hhigh, hrest]

/-- The code points of a string are read as the string. -/
theorem ofReversedUnits?_toNat (s : String) :
    Text.ofReversedUnits? (s.toList.map Char.toNat).reverse = some s := by
  rw [← List.map_reverse, Text.ofReversedUnits?, prependUnits?_toNat]
  simp

theorem spells_string (s : String) :
    Spells (scalarText (string (some s))).toList [scalar (string (some s))] := by
  intro before
  refine ⟨⟨scalar (string (some s)) :: before, .between⟩, ?_, settled_between _⟩
  have htext : (scalarText (string (some s))).toList =
      '"' :: ((s.toList.flatMap fun c => (escapeChar c).toList) ++ ['"']) := by
    simp [scalarText, String.toList_join, List.flatMap_map]
  have hopen : Scan.step ⟨before, .between⟩ '"' = some ⟨before, .inString []⟩ := rfl
  have hclose : ['"'].foldlM Scan.step ⟨before, .inString (s.toList.map Char.toNat).reverse⟩ =
      some ⟨scalar (string (Text.ofReversedUnits? (s.toList.map Char.toNat).reverse)) :: before,
        .between⟩ := rfl
  rw [htext, List.foldlM_cons, hopen, Option.bind_eq_bind, Option.bind_some, List.foldlM_append,
    foldlM_escapeChars, List.append_nil, Option.bind_eq_bind, Option.bind_some, hclose,
    ofReversedUnits?_toNat]

/-! ## Documents -/

/-- Neither an array nor an object. -/
def isScalar : Json → Bool
  | array _ => false
  | object _ => false
  | _ => true

/-- **Every scalar is read back**, the missing ones as missing. -/
theorem spells_scalar (h : isScalar value = true) :
    Spells (scalarText value).toList [scalar value] := by
  have hnull : Spells ['n', 'u', 'l', 'l'] [scalar null] := spells_word rfl rfl
  have htrue : Spells ['t', 'r', 'u', 'e'] [scalar (bool true)] := spells_word rfl rfl
  have hfalse : Spells ['f', 'a', 'l', 's', 'e'] [scalar (bool false)] := spells_word rfl rfl
  have hmissing : Spells ['-', '0'] [scalar (number none)] := spells_word rfl rfl
  cases value with
  | null => exact hnull
  | bool b =>
    cases b with
    | false => exact hfalse
    | true => exact htrue
  | number n =>
    cases n with
    | none => exact hmissing
    | some n => exact spells_int n
  | string text =>
    cases text with
    | none => exact fun before => ⟨_, rfl, settled_between _⟩
    | some s => exact spells_string s
  | array items => cases h
  | object members => cases h

/-- The characters of tokens that are written one after the other. -/
def chars (tokens : List Token) : List Char :=
  tokens.flatMap fun token => token.text.toList

/-- Tokens that are scanned as they are written. -/
def ReadBack (tokens : List Token) : Prop :=
  Spells (chars tokens) tokens

theorem readBack_scalar (h : isScalar value = true) : ReadBack [.scalar value] := by
  unfold ReadBack chars
  rw [List.flatMap_singleton]
  exact spells_scalar h

/-- Whatever stands around punctuation is scanned on its own. -/
theorem ReadBack.punctuation (h : ReadBack tokens) (htoken : token.text.toList = [c])
    (hc : punctuation? c = some token) (h' : ReadBack tokens') :
    ReadBack (tokens ++ token :: tokens') := by
  have hchars : chars (tokens ++ token :: tokens') = chars tokens ++ c :: chars tokens' := by
    simp [chars, htoken]
  unfold ReadBack
  rw [hchars]
  exact Spells.punctuation h hc h'

theorem readBack_nil : ReadBack [] :=
  spells_nil

end Token

open Token

mutual

/-- Each scalar of a document stands between punctuation. -/
theorem readBack_tokens : ∀ document : Json, ReadBack document.tokens
  | .null | .bool _ | .number _ | .string _ => readBack_scalar rfl
  | .array items => readBack_nil.punctuation rfl rfl (readBack_itemTokens items)
  | .object members => readBack_nil.punctuation rfl rfl (readBack_memberTokens members)

theorem readBack_itemTokens : ∀ items : List Json, ReadBack (itemTokens items)
  | [] => readBack_nil.punctuation rfl rfl readBack_nil
  | [item] => (readBack_tokens item).punctuation rfl rfl readBack_nil
  | item :: next :: rest =>
    (readBack_tokens item).punctuation rfl rfl (readBack_itemTokens (next :: rest))

theorem readBack_memberTokens : ∀ members : List (Option String × Json),
    ReadBack (memberTokens members)
  | [] => readBack_nil.punctuation rfl rfl readBack_nil
  | [(_, value)] => (readBack_scalar rfl).punctuation rfl rfl
      ((readBack_tokens value).punctuation rfl rfl readBack_nil)
  | (_, value) :: next :: rest => (readBack_scalar rfl).punctuation rfl rfl
      ((readBack_tokens value).punctuation rfl rfl (readBack_memberTokens (next :: rest)))

end

/-- **The text of a document is scanned as its tokens.** -/
theorem scan?_render (document : Json) : Token.scan? document.render = some document.tokens := by
  have htext : document.render.toList = chars document.tokens := by
    simp [render, chars, String.toList_join, List.flatMap_map]
  obtain ⟨scan, hscan, hsettled⟩ := readBack_tokens document []
  rw [Token.scan?, htext, hscan, Option.bind_some, hsettled.finish]
  simp

end AbstractDomains.Json
