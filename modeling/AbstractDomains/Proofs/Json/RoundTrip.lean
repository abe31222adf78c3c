import AbstractDomains.Json.Reader
import AbstractDomains.Proofs.Json.Scanning

/-!
# Reading back what is written

The text of a document is read as the document, however deep it nests. How deep that is can be told
from the tokens: it is the most brackets that are open at once.

Results:
* `read_tokens`: the tokens of a document are read as the document wherever a value has to come.
* `parse?_render`: every document is read back from its text.
* `nesting_tokens`: the brackets of a document nest as deep as its arrays and objects.
-/

namespace AbstractDomains.Json

open Token

/-! ## Documents from their tokens -/

section Reading

open Reading (step close)

theorem tokens_eq_cons (document : Json) :
    ∃ token rest, document.tokens = token :: rest ∧ token ≠ .closeArray := by
  cases document with
  | array items => exact ⟨_, _, rfl, by simp⟩
  | object members => exact ⟨_, _, rfl, by simp⟩
  | _ => exact ⟨_, _, rfl, by simp⟩

theorem itemTokens_eq_cons : ∀ {items : List Json}, items ≠ [] →
    ∃ token rest, itemTokens items = token :: rest ∧ token ≠ .closeArray
  | [], h => absurd rfl h
  | [item], _ => by
    obtain ⟨token, rest, htokens, hne⟩ := tokens_eq_cons item
    exact ⟨token, rest ++ [.closeArray], by simp [itemTokens, htokens], hne⟩
  | item :: next :: rest, _ => by
    obtain ⟨token, rest', htokens, hne⟩ := tokens_eq_cons item
    exact ⟨token, rest' ++ .comma :: itemTokens (next :: rest), by simp [itemTokens, htokens], hne⟩

/-- The first item of an array is read as the others are. -/
theorem foldlM_firstItem {items : List Json} (h : items ≠ []) (stack : List Frame) :
    (itemTokens items).foldlM step (.firstItem stack) =
      (itemTokens items).foldlM step (.value (.array [] :: stack)) := by
  obtain ⟨token, rest, htokens, hne⟩ := itemTokens_eq_cons h
  have hstep : step (.firstItem stack) token = step (.value (.array [] :: stack)) token := by
    cases token with
    | closeArray => exact absurd rfl hne
    | _ => rfl
  rw [htokens, List.foldlM_cons, List.foldlM_cons, hstep]

/-- The first member of an object is read as the others are. -/
theorem foldlM_firstMember {members : List (Option String × Json)} (h : members ≠ [])
    (stack : List Frame) : (memberTokens members).foldlM step (.firstMember stack) =
      (memberTokens members).foldlM step (.nextName [] stack) := by
  cases members with
  | nil => exact absurd rfl h
  | cons member rest => cases rest <;> rfl

mutual

/-- **The tokens of a document** are read as the document. -/
theorem read_tokens : ∀ (document : Json) (stack : List Frame),
    document.tokens.foldlM step (.value stack) = some (close stack document)
  | .null, _ | .bool _, _ | .number _, _ | .string _, _ => rfl
  | .array items, stack => by
    by_cases h : items = []
    · subst h
      rfl
    · exact (foldlM_firstItem h stack).trans (read_itemTokens items [] stack h)
  | .object members, stack => by
    by_cases h : members = []
    · subst h
      rfl
    · exact (foldlM_firstMember h stack).trans (read_memberTokens members [] stack h)

theorem read_itemTokens : ∀ (items read : List Json) (stack : List Frame), items ≠ [] →
    (itemTokens items).foldlM step (.value (.array read :: stack)) =
      some (close stack (.array (read.reverse ++ items)))
  | [], _, _, h => absurd rfl h
  | [item], read, stack, _ => by
    rw [itemTokens, List.foldlM_append, read_tokens item]
    simp [close, step]
  | item :: next :: rest, read, stack, _ => by
    have hrest := read_itemTokens (next :: rest) (item :: read) stack (by simp)
    rw [itemTokens, List.foldlM_append, read_tokens item]
    · simpa [close, step] using hrest
    · simp

theorem read_memberTokens : ∀ (members read : List (Option String × Json)) (stack : List Frame),
    members ≠ [] → (memberTokens members).foldlM step (.nextName read stack) =
      some (close stack (.object (read.reverse ++ members)))
  | [], _, _, h => absurd rfl h
  | [(name, value)], read, stack, _ => by
    have hvalue := read_tokens value (.object read name :: stack)
    simp [memberTokens, step, hvalue, close]
  | (name, value) :: next :: rest, read, stack, _ => by
    have hvalue := read_tokens value (.object read name :: stack)
    have hrest := read_memberTokens (next :: rest) ((name, value) :: read) stack (by simp)
    simpa [memberTokens, step, hvalue, close] using hrest

end

end Reading

/-- **Every document is read back** from its text. -/
theorem parse?_render (document : Json) : parse? document.render = some document := by
  rw [parse?, scan?_render, Option.bind_some, ofTokens?, read_tokens]
  rfl

/-! ## Nesting -/

/-- The most brackets that are open at once, if `level` of them are open already. -/
def deepest (level : Nat) : List Token → Nat
  | [] => level
  | .openArray :: rest => deepest (level + 1) rest
  | .openObject :: rest => deepest (level + 1) rest
  | .closeArray :: rest => max level (deepest (level - 1) rest)
  | .closeObject :: rest => max level (deepest (level - 1) rest)
  | _ :: rest => deepest level rest

/-- How deep the brackets among the tokens of a text nest. -/
def nesting (tokens : List Token) : Nat :=
  deepest 0 tokens

theorem le_deepest (level : Nat) (tokens : List Token) : level ≤ deepest level tokens := by
  induction tokens generalizing level with
  | nil => exact Nat.le_refl level
  | cons token rest ih =>
    have hsame := ih level
    have hopen := ih (level + 1)
    cases token <;> simp only [deepest] <;> omega

mutual

theorem deepest_tokens : ∀ (document : Json) (level : Nat) (after : List Token),
    deepest level (document.tokens ++ after) = max (level + document.depth) (deepest level after)
  | .null, level, after | .bool _, level, after | .number _, level, after
  | .string _, level, after => (Nat.max_eq_right (le_deepest level after)).symm
  | .array items, level, after => by
    have hitems := deepest_itemTokens items level after
    simp only [tokens, List.cons_append, deepest, depth]
    omega
  | .object members, level, after => by
    have hmembers := deepest_memberTokens members level after
    simp only [tokens, List.cons_append, deepest, depth]
    omega

theorem deepest_itemTokens : ∀ (items : List Json) (level : Nat) (after : List Token),
    deepest (level + 1) (itemTokens items ++ after) =
      max (level + 1 + depthItems items) (deepest level after)
  | [], level, after => rfl
  | [item], level, after => by
    have hitem := deepest_tokens item (level + 1) (.closeArray :: after)
    calc deepest (level + 1) (itemTokens [item] ++ after)
        = deepest (level + 1) (item.tokens ++ .closeArray :: after) := by simp [itemTokens]
      _ = max (level + 1 + item.depth) (max (level + 1) (deepest level after)) := hitem
      _ = max (level + 1 + depthItems [item]) (deepest level after) := by
        simp only [depthItems]
        omega
  | item :: next :: rest, level, after => by
    have hitem :=
      deepest_tokens item (level + 1) (.comma :: (itemTokens (next :: rest) ++ after))
    have hrest := deepest_itemTokens (next :: rest) level after
    have hdepth : depthItems (item :: next :: rest) =
        max item.depth (depthItems (next :: rest)) := rfl
    calc deepest (level + 1) (itemTokens (item :: next :: rest) ++ after)
        = deepest (level + 1) (item.tokens ++ .comma :: (itemTokens (next :: rest) ++ after)) := by
          simp [itemTokens]
      _ = max (level + 1 + item.depth) (deepest (level + 1) (itemTokens (next :: rest) ++ after)) :=
        hitem
      _ = max (level + 1 + depthItems (item :: next :: rest)) (deepest level after) := by
        rw [hrest, hdepth]
        omega

theorem deepest_memberTokens : ∀ (members : List (Option String × Json)) (level : Nat)
    (after : List Token), deepest (level + 1) (memberTokens members ++ after) =
      max (level + 1 + depthMembers members) (deepest level after)
  | [], level, after => rfl
  | [(name, value)], level, after => by
    have hvalue := deepest_tokens value (level + 1) (.closeObject :: after)
    calc deepest (level + 1) (memberTokens [(name, value)] ++ after)
        = deepest (level + 1) (value.tokens ++ .closeObject :: after) := by
          simp [memberTokens, deepest]
      _ = max (level + 1 + value.depth) (max (level + 1) (deepest level after)) := hvalue
      _ = max (level + 1 + depthMembers [(name, value)]) (deepest level after) := by
        simp only [depthMembers]
        omega
  | (name, value) :: next :: rest, level, after => by
    have hvalue :=
      deepest_tokens value (level + 1) (.comma :: (memberTokens (next :: rest) ++ after))
    have hrest := deepest_memberTokens (next :: rest) level after
    have hdepth : depthMembers ((name, value) :: next :: rest) =
        max value.depth (depthMembers (next :: rest)) := rfl
    calc deepest (level + 1) (memberTokens ((name, value) :: next :: rest) ++ after)
        = deepest (level + 1)
          (value.tokens ++ .comma :: (memberTokens (next :: rest) ++ after)) := by
            simp [memberTokens, deepest]
      _ = max (level + 1 + value.depth)
          (deepest (level + 1) (memberTokens (next :: rest) ++ after)) := hvalue
      _ = max (level + 1 + depthMembers ((name, value) :: next :: rest)) (deepest level after) := by
        rw [hrest, hdepth]
        omega

end

theorem nesting_tokens (document : Json) : nesting document.tokens = document.depth := by
  have h := deepest_tokens document 0 []
  rw [List.append_nil] at h
  rw [nesting, h, deepest]
  omega

end AbstractDomains.Json
