import AbstractDomains.Expr.Encoding
import AbstractDomains.Proofs.Json.RoundTrip

/-!
# Expressions are read back as they were written

A text is read within a limit on how many brackets may be open at once. What is written of an
expression takes as many levels as its brackets nest: each array and each object takes one, and
those that stand side by side take as many as the deepest of them.

Results:
* `Json.record?_ofMembers`: a record with all its fields is read field by field.
* `Expr.ofJson?_toJson`: an expression is read back within the levels that it takes, and not within
  less.
* `expressions_read_back`: so is its text, alone or in a list.
-/

namespace AbstractDomains

/-! ## Levels of nesting -/

section Levels

variable {α β : Type} {read read' : Nat → Option α} {a : α} {b : β} {depth depth' : Nat}

/-- Within `depth` levels or more `a` is read, and nothing within less. -/
def Takes (depth : Nat) (read : Nat → Option α) (a : α) : Prop :=
  ∀ limit, read limit = if depth ≤ limit then some a else none

theorem takes_zero (h : ∀ limit, read limit = some a) : Takes 0 read a :=
  fun limit => h limit

/-- What opens an array or an object leaves one level less to its parts. -/
theorem Takes.opened (h : Takes depth read a) (hzero : read' 0 = none)
    (hsucc : ∀ limit, read' (limit + 1) = read limit) : Takes (depth + 1) read' a := by
  intro limit
  cases limit with
  | zero => exact hzero
  | succ limit =>
    rw [hsucc, h]
    simp

/-- Two parts take as many levels as the deeper one. -/
theorem Takes.bind (h : Takes depth read a) (next : Nat → α → Option β)
    (h' : Takes depth' (next · a) b) :
    Takes (max depth depth') (fun limit => (read limit).bind (next limit)) b := by
  intro limit
  have ha := h limit
  have hb := h' limit
  by_cases hread : depth ≤ limit
  · rw [if_pos hread] at ha
    simp only [ha, Option.bind_some, hb, Nat.max_le, hread, true_and]
  · rw [if_neg hread] at ha
    simp only [ha, Option.bind_none, Nat.max_le, hread, false_and, if_false]

theorem Takes.map (h : Takes depth read a) (f : α → β) :
    Takes depth (fun limit => (read limit).map f) (f a) := by
  intro limit
  dsimp only
  rw [h]
  split <;> rfl

theorem mapM_eq_some_map {f : α → Option β} {g : α → β} {l : List α}
    (h : ∀ a ∈ l, f a = some (g a)) : l.mapM f = some (l.map g) := by
  induction l with
  | nil => rfl
  | cons a rest ih =>
    rw [List.mapM_cons, h a List.mem_cons_self, ih fun b hb => h b (List.mem_cons_of_mem a hb)]
    rfl

end Levels

/-! ## Records and variants -/

namespace Json

variable {name : String} {value content : Json} {limit : Nat}

theorem valuesOf_cons (other : String) (members : List (Option String × Json)) :
    valuesOf name ((some other, value) :: members) =
      if other = name then value :: valuesOf name members else valuesOf name members := by
  by_cases h : other = name <;> simp [valuesOf, h]

theorem valuesOf_eq_nil {members : List (String × Json)} (h : name ∉ members.map (·.1)) :
    valuesOf name (members.map fun (name, value) => (some name, value)) = [] := by
  induction members with
  | nil => rfl
  | cons member rest ih =>
    rw [List.map_cons, List.mem_cons, not_or] at h
    rw [List.map_cons, valuesOf_cons, if_neg (Ne.symm h.1), ih h.2]

theorem valuesOf_eq_singleton {members : List (String × Json)} (h : (members.map (·.1)).Nodup)
    (hmem : (name, value) ∈ members) :
    valuesOf name (members.map fun (name, value) => (some name, value)) = [value] := by
  induction members with
  | nil => cases hmem
  | cons member rest ih =>
    obtain ⟨hhead, hrest⟩ := List.nodup_cons.mp h
    rw [List.map_cons, valuesOf_cons]
    rcases List.mem_cons.mp hmem with rfl | hmem
    · rw [if_pos rfl, valuesOf_eq_nil hhead]
    · have hne : member.1 ≠ name := fun heq =>
        hhead (List.mem_map.mpr ⟨(name, value), hmem, heq.symm⟩)
      rw [if_neg hne, ih hrest hmem]

/-- A record with all its fields is read field by field. -/
theorem record?_ofMembers (members : List (String × Json)) (h : (members.map (·.1)).Nodup) :
    record? (members.map (·.1)) (ofMembers members) = some (members.map fun m => some m.2) := by
  have hfield : ∀ m ∈ members,
      field? (members.map fun (name, value) => (some name, value)) m.1 = some (some m.2) := by
    intro m hm
    rw [field?, valuesOf_eq_singleton h hm]
  have htext : (members.map fun (name, value) => (some name, value)).all (·.1.isSome) = true := by
    simp
  rw [ofMembers, record?, if_pos htext, List.mapM_map]
  exact mapM_eq_some_map hfield

theorem unit?_ofMembers (h : content ≠ .null) :
    unit? limit (ofMembers [(name, content)]) = none := by
  cases content with
  | null => exact absurd rfl h
  | _ => rfl

theorem variant?_ofMembers : variant? (ofMembers [(name, content)]) = some (name, content) :=
  rfl

theorem keyword?_ofKeyword {α : Type} [DecidableEq α] [Keyword α] (limit : Nat) (a : α) :
    keyword? limit (ofKeyword a) = some a :=
  Keyword.ofWord?_word a

theorem depth_ofKeyword {α : Type} [DecidableEq α] [Keyword α] (a : α) : (ofKeyword a).depth = 0 :=
  rfl

theorem int64?_ofInt (n : Int64) : (ofInt n.toInt).int64? = some n := by
  have hbounds : Int64.minValue.toInt ≤ n.toInt ∧ n.toInt ≤ Int64.maxValue.toInt :=
    ⟨n.minValue_le_toInt, n.toInt_le⟩
  rw [int64?, ofInt, int?, Option.bind_some, if_pos hbounds, Int64.ofInt_toInt]

end Json

open Json (ofMembers ofKeyword keyword?_ofKeyword)

/-! ## Parts of expressions -/

theorem TypeSet.takes_toJson (types : TypeSet) :
    Takes 1 (TypeSet.ofField? · (some types.toJson)) types := by
  have hnames : ∀ limit, (types.toList.map ofKeyword).mapM (Json.keyword? limit) =
      some types.toList := by
    intro limit
    have hname : ∀ t ∈ types.toList, (Json.keyword? limit ∘ ofKeyword) t = some (id t) :=
      fun t _ => keyword?_ofKeyword limit t
    rw [List.mapM_map, mapM_eq_some_map hname, List.map_id]
  have h : Takes 0 (fun _ => some types) types := takes_zero fun _ => rfl
  refine h.opened rfl fun limit => ?_
  rw [ofField?, toJson, ofJson?, hnames, Option.map_some, TypeSet.ofList_toList]

theorem TypeSet.depth_toJson (types : TypeSet) : types.toJson.depth = 1 := by
  have hitems : ∀ names : List RuntimeType, Json.depthItems (names.map ofKeyword) = 0 := by
    intro names
    induction names with
    | nil => rfl
    | cons name rest ih => rw [List.map_cons, Json.depthItems, ih]; rfl
  rw [toJson, Json.depth, hitems]

theorem Constant.takes_toJson (value : Constant) :
    Takes value.toJson.depth (Constant.ofJson? · value.toJson) value := by
  cases value with
  | int n =>
    have h : Takes 0 (fun _ => some (Constant.int n)) (.int n) := takes_zero fun _ => rfl
    refine h.opened rfl fun limit => ?_
    show (Json.ofInt n.toInt).int64?.map Constant.int = _
    rw [Json.int64?_ofInt]
    rfl
  | bool b => exact Takes.opened (takes_zero fun _ => rfl) rfl fun _ => rfl
  | str s => exact Takes.opened (takes_zero fun _ => rfl) rfl fun _ => rfl
  | null => exact takes_zero fun _ => rfl

namespace Expr

variable {types : TypeSet} {kind : Json} {e : Expr}

theorem takes_node (h : Takes kind.depth (ofKind? · kind types) e) :
    Takes (node types kind).depth (ofJson? · (node types kind)) e := by
  have hdepth : (node types kind).depth = max 1 kind.depth + 1 := by
    simp only [node, ofMembers, List.map_cons, List.map_nil, Json.depth, Json.depthMembers,
      TypeSet.depth_toJson]
    omega
  rw [hdepth]
  refine (types.takes_toJson.bind (ofKind? · kind) h).opened rfl fun limit => ?_
  have hrecord : (node types kind).record? ["kind", "types"] =
      some [some kind, some types.toJson] :=
    Json.record?_ofMembers [("kind", kind), ("types", types.toJson)] (by simp)
  rw [ofJson?, hrecord]

/-- A kind with content spends a level on its name. -/
theorem takes_variant {name : String} {content : Json} {read : Nat → Option Expr}
    (h : Takes content.depth read e) (hnull : content ≠ .null)
    (hread : ∀ limit, ofKind? (limit + 1) (ofMembers [(name, content)]) types = read limit) :
    Takes (ofMembers [(name, content)]).depth
      (ofKind? · (ofMembers [(name, content)]) types) e := by
  have hdepth : (ofMembers [(name, content)]).depth = content.depth + 1 := by
    simp [ofMembers, Json.depth, Json.depthMembers]
  have hzero : ofKind? 0 (ofMembers [(name, content)]) types = none := by
    simp [ofKind?, Json.unit?_ofMembers hnull]
  rw [hdepth]
  exact h.opened hzero hread

theorem takes_constant (value : Constant) (types : TypeSet) :
    Takes (ofMembers [("constant", value.toJson)]).depth
      (ofKind? · (ofMembers [("constant", value.toJson)]) types) (constant value types) := by
  have hnull : value.toJson ≠ .null := by
    cases value <;> simp [Constant.toJson, ofMembers, Json.ofString]
  refine takes_variant (value.takes_toJson.map (constant · types)) hnull fun limit => ?_
  rw [ofKind?, Json.unit?_ofMembers hnull]
  rfl

/-- The record of an operator and its operands spends another level. -/
theorem takes_operation {arity : String} {members : List (String × Json)}
    {read : Nat → Option Expr} {depth : Nat} (h : Takes depth read e)
    (hdepth : depth = Json.depthMembers (members.map fun (name, value) => (some name, value)))
    (harity : arity ≠ "constant" ∧ arity ≠ "variable")
    (hread : ∀ limit, ofOperation? (limit + 1) arity (ofMembers members) types = read limit) :
    Takes (ofMembers [(arity, ofMembers members)]).depth
      (ofKind? · (ofMembers [(arity, ofMembers members)]) types) e := by
  have hrecord : Takes (ofMembers members).depth
      (ofOperation? · arity (ofMembers members) types) e := by
    rw [ofMembers, Json.depth, ← hdepth]
    exact h.opened (by rw [ofOperation?]) hread
  have hnull : ofMembers members ≠ .null := by simp [ofMembers]
  refine takes_variant hrecord hnull fun limit => ?_
  simp [ofKind?, Json.unit?_ofMembers hnull, Json.variant?_ofMembers, harity]

/-- **An expression is read back** within the levels that its document nests. -/
theorem ofJson?_toJson (e : Expr) : Takes e.toJson.depth (ofJson? · e.toJson) e := by
  induction e with
  | constant value types => exact takes_node (takes_constant value types)
  | var id types =>
    have hnull : Json.ofString id ≠ .null := by simp [Json.ofString]
    refine takes_node (takes_variant (takes_zero fun _ => rfl) hnull fun limit => ?_)
    unfold ofKind?
    rw [Json.unit?_ofMembers hnull]
    rfl
  | pushAny types =>
    refine takes_node (takes_zero fun limit => ?_)
    unfold ofKind?
    rfl
  | skip types =>
    refine takes_node (takes_zero fun limit => ?_)
    unfold ofKind?
    rfl
  | unary op arg types ih =>
    have h : Takes (max arg.toJson.depth 0)
        (fun limit => do return unary op (← ofJson? limit arg.toJson) types)
        (unary op arg types) := ih.bind _ (takes_zero fun _ => rfl)
    have hrecord := Json.record?_ofMembers [("op", ofKeyword op), ("arg", arg.toJson)] (by simp)
    refine takes_node (takes_operation h ?_ (by decide) fun limit => ?_)
    · simp [Json.depthMembers, Json.depth_ofKeyword]
    · simp only [List.map_cons, List.map_nil] at hrecord
      rw [ofOperation?, hrecord]
      simp only [keyword?_ofKeyword]
      rfl
  | binary op left right types ihl ihr =>
    have h : Takes (max left.toJson.depth (max right.toJson.depth 0))
        (fun limit => do
          return binary op (← ofJson? limit left.toJson) (← ofJson? limit right.toJson) types)
        (binary op left right types) :=
      ihl.bind _ (ihr.bind _ (takes_zero fun _ => rfl))
    have hrecord := Json.record?_ofMembers
      [("op", ofKeyword op), ("left", left.toJson), ("right", right.toJson)] (by simp)
    refine takes_node (takes_operation h ?_ (by decide) fun limit => ?_)
    · simp [Json.depthMembers, Json.depth_ofKeyword]
    · simp only [List.map_cons, List.map_nil] at hrecord
      rw [ofOperation?, hrecord]
      simp only [keyword?_ofKeyword]
      rfl
  | ternary op left middle right types ihl ihm ihr =>
    have h : Takes (max left.toJson.depth (max middle.toJson.depth (max right.toJson.depth 0)))
        (fun limit => do
          return ternary op (← ofJson? limit left.toJson) (← ofJson? limit middle.toJson)
            (← ofJson? limit right.toJson) types)
        (ternary op left middle right types) :=
      ihl.bind _ (ihm.bind _ (ihr.bind _ (takes_zero fun _ => rfl)))
    have hrecord := Json.record?_ofMembers [("op", ofKeyword op), ("left", left.toJson),
      ("middle", middle.toJson), ("right", right.toJson)] (by simp)
    refine takes_node (takes_operation h ?_ (by decide) fun limit => ?_)
    · simp [Json.depthMembers, Json.depth_ofKeyword]
    · simp only [List.map_cons, List.map_nil] at hrecord
      rw [ofOperation?, hrecord]
      simp only [keyword?_ofKeyword]
      rfl

/-! ## Texts -/

/-- A list of expressions takes a level, and what its items take. -/
theorem listOfJson?_toJson (es : List Expr) :
    Takes (Json.array (es.map toJson)).depth (listOfJson? · (.array (es.map toJson))) es := by
  have h : Takes (Json.depthItems (es.map toJson))
      (fun limit => (es.map toJson).mapM (ofJson? limit)) es := by
    induction es with
    | nil => exact takes_zero fun _ => rfl
    | cons e rest ih =>
      have hcons : Takes (max e.toJson.depth (max (Json.depthItems (rest.map toJson)) 0))
          (fun limit => do
            return (← ofJson? limit e.toJson) :: (← (rest.map toJson).mapM (ofJson? limit)))
          (e :: rest) :=
        (ofJson?_toJson e).bind _ (ih.bind _ (takes_zero fun _ => rfl))
      simpa only [List.map_cons, List.mapM_cons, Json.depthItems, Nat.max_zero] using hcons
  exact h.opened rfl fun _ => rfl

end Expr

/-- **Expressions are read back from their text.** Whatever strings, integers and types occur in an
expression, it is read back from its text iff no more than 127 brackets are open at once, and
nothing is read if there are more. The same goes for the text of a list of expressions. -/
theorem expressions_read_back :
    (∀ e : Expr, ∃ tokens, Json.Token.scan? e.render = some tokens ∧
      Expr.parse? e.render = if Json.nesting tokens ≤ 127 then some e else none) ∧
    ∀ es : List Expr, ∃ tokens,
      Json.Token.scan? (Json.array (es.map Expr.toJson)).render = some tokens ∧
      Expr.parseList? (Json.array (es.map Expr.toJson)).render =
        if Json.nesting tokens ≤ 127 then some es else none := by
  constructor
  · intro e
    refine ⟨e.toJson.tokens, Json.scan?_render e.toJson, ?_⟩
    rw [Expr.parse?, Expr.render, Json.parse?_render, Option.bind_some, Json.nesting_tokens]
    exact Expr.ofJson?_toJson e 127
  · intro es
    refine ⟨_, Json.scan?_render _, ?_⟩
    rw [Expr.parseList?, Json.parse?_render, Option.bind_some, Json.nesting_tokens]
    exact Expr.listOfJson?_toJson es 127

end AbstractDomains
