import Mathlib.Data.List.Forall2
import AbstractDomains.Proofs.Encoding

/-!
# Spellings of expressions

The same expression can be spelled in many ways as a document: a record as an object, with its
members in any order and others among them, or as an array of its fields; a name alone or as an
object from the name to null; types repeated, in any order, or left out. `Expr.Spells` says which
documents spell an expression, rule by rule and without regard to nesting. Those are the documents
that are decoded as the expression. What is written of it is one of them, and the same for all.

Results:
* `Json.record?_eq_some_iff`, `Json.unit?_eq_some_iff`: records and names.
* `Expr.spells_of_ofJson?`, `Expr.ofJson?_of_spells`: what is read of a document is what it spells,
  as soon as there are enough levels.
* `decoding_undoes_encoding`: encoding, decoding and spelling.
-/

namespace AbstractDomains

/-! ## Records and names -/

namespace Json

/-- The document spells a record with these fields: as an object in which each of them occurs at
most once, or as an array that may end before the last ones. -/
inductive SpellsRecord (names : List String) : Json → List (Option Json) → Prop
  | object {members : List (Option String × Json)} {values : List (Option Json)} :
    (∀ m ∈ members, m.1.isSome = true) →
    List.Forall₂ (fun name value => valuesOf name members = value.toList) names values →
    SpellsRecord names (.object members) values
  | array {items : List Json} {missing : Nat} : items.length + missing = names.length →
    SpellsRecord names (.array items) (items.map some ++ List.replicate missing none)

/-- The document spells a name: it is the name, or an object from the name to null. -/
inductive SpellsName (name : String) : Json → Prop
  | text : SpellsName name (.ofString name)
  | object : SpellsName name (.ofMembers [(name, .null)])

variable {names : List String} {name : String} {document content value : Json} {items : List Json}
  {members : List (Option String × Json)} {values : List (Option Json)} {limit : Nat}

theorem mapM_eq_some_iff {α β : Type} {f : α → Option β} {l : List α} {l' : List β} :
    l.mapM f = some l' ↔ List.Forall₂ (fun a b => f a = some b) l l' := by
  induction l generalizing l' with
  | nil => simp [eq_comm]
  | cons a l ih =>
    simp only [List.mapM_cons, List.forall₂_cons_left_iff, ← ih, Option.bind_eq_bind,
      Option.bind_eq_some_iff, Option.pure_def, Option.some.injEq]
    exact ⟨fun ⟨b, hb, rest, hrest, h⟩ => ⟨b, rest, hb, hrest, h.symm⟩,
      fun ⟨b, rest, hb, hrest, h⟩ => ⟨b, hb, rest, hrest, h.symm⟩⟩

theorem field?_eq_some_iff {value : Option Json} :
    field? members name = some value ↔ valuesOf name members = value.toList := by
  unfold field?
  rcases valuesOf name members with _ | ⟨v, _ | ⟨w, rest⟩⟩ <;> cases value <;> simp

/-- **A record is read** from the documents that spell it. -/
theorem record?_eq_some_iff :
    record? names document = some values ↔ SpellsRecord names document values := by
  constructor
  · intro h
    cases document with
    | object members =>
      obtain ⟨htexts, hfields⟩ := Option.ite_none_right_eq_some.mp h
      simp only [mapM_eq_some_iff, field?_eq_some_iff] at hfields
      exact .object (List.all_eq_true.mp htexts) hfields
    | array items =>
      obtain ⟨hle, hvalues⟩ := Option.ite_none_right_eq_some.mp h
      rw [← Option.some.inj hvalues]
      exact .array (Nat.add_sub_cancel' hle)
    | _ => cases h
  · intro h
    cases h with
    | object htexts hfields =>
      refine Option.ite_none_right_eq_some.mpr ⟨List.all_eq_true.mpr htexts, ?_⟩
      simpa only [mapM_eq_some_iff, field?_eq_some_iff] using hfields
    | @array items missing hlength =>
      have hmissing : names.length - items.length = missing := by omega
      refine Option.ite_none_right_eq_some.mpr ⟨by omega, ?_⟩
      rw [hmissing]

/-- **A name is read** from the documents that spell it, if there is a level for an object. -/
theorem unit?_eq_some_iff :
    unit? limit document = some name ↔ SpellsName name document ∧ document.depth ≤ limit := by
  constructor
  · intro h
    unfold unit? at h
    split at h
    · subst h
      exact ⟨.text, Nat.zero_le _⟩
    · obtain ⟨hne, h⟩ := Option.ite_none_left_eq_some.mp h
      obtain rfl := Option.some.inj h
      exact ⟨.object, Nat.one_le_iff_ne_zero.mpr hne⟩
    · cases h
  · rintro ⟨hname, hdepth⟩
    cases hname with
    | text => rfl
    | object => exact if_neg (Nat.one_le_iff_ne_zero.mp hdepth)

theorem keyword?_eq_some_iff {α : Type} [DecidableEq α] [Keyword α] {a : α} :
    keyword? limit document = some a ↔
      SpellsName (Keyword.word a) document ∧ document.depth ≤ limit := by
  rw [keyword?, Option.bind_eq_some_iff, ← unit?_eq_some_iff]
  constructor
  · rintro ⟨word, hword, ha⟩
    have heq : Keyword.word a = word := by simpa using List.find?_some ha
    rw [heq, hword]
  · intro h
    exact ⟨_, h, Keyword.ofWord?_word a⟩

theorem variant?_eq_some (h : variant? document = some (name, content)) :
    document = ofMembers [(name, content)] := by
  unfold variant? at h
  split at h
  · cases h
    rfl
  · cases h

theorem eq_ofInt_of_int64? {n : Int64} (h : document.int64? = some n) :
    document = ofInt n.toInt := by
  obtain ⟨m, hm, h⟩ := Option.bind_eq_some_iff.mp h
  obtain ⟨⟨hmin, hmax⟩, h⟩ := Option.ite_none_right_eq_some.mp h
  obtain rfl := Option.some.inj h
  rw [Int64.toInt_minValue] at hmin
  rw [Int64.toInt_maxValue] at hmax
  rw [Int64.toInt_ofInt_of_le hmin (by omega)]
  cases document with
  | number value => exact congrArg number hm
  | _ => cases hm

theorem eq_bool_of_bool? {b : Bool} (h : document.bool? = some b) : document = bool b := by
  cases document with
  | bool value => exact congrArg bool (Option.some.inj h)
  | _ => cases h

theorem eq_ofString_of_text? {text : String} (h : document.text? = some text) :
    document = ofString text := by
  cases document with
  | string value => exact congrArg string h
  | _ => cases h

/-! ## Nesting of parts -/

theorem depth_le_depthItems (h : value ∈ items) : value.depth ≤ depthItems items := by
  induction items with
  | nil => cases h
  | cons item rest ih =>
    rw [depthItems]
    rcases List.mem_cons.mp h with rfl | h
    · exact Nat.le_max_left _ _
    · exact Nat.le_trans (ih h) (Nat.le_max_right _ _)

theorem depth_le_depthMembers (h : value ∈ members.map (·.2)) :
    value.depth ≤ depthMembers members := by
  induction members with
  | nil => cases h
  | cons member rest ih =>
    rw [depthMembers]
    rcases List.mem_cons.mp h with rfl | h
    · exact Nat.le_max_left _ _
    · exact Nat.le_trans (ih h) (Nat.le_max_right _ _)

theorem mem_of_mem_valuesOf (h : value ∈ valuesOf name members) : value ∈ members.map (·.2) := by
  obtain ⟨member, hmember, rfl⟩ := List.mem_map.mp h
  exact List.mem_map_of_mem (List.mem_filter.mp hmember).1

/-- A record opens a level, and its fields are within. -/
theorem SpellsRecord.opened (h : SpellsRecord names document values)
    (hdepth : document.depth ≤ limit) :
    ∃ inner, limit = inner + 1 ∧ ∀ {value}, some value ∈ values → value.depth ≤ inner := by
  cases h with
  | @object members _ _ hfields =>
    rw [depth] at hdepth
    refine ⟨limit - 1, by omega, fun {value} hvalue => ?_⟩
    have hmember : value ∈ members.map (·.2) := by
      induction hfields with
      | nil => cases hvalue
      | @cons name _ _ _ hfield _ ih =>
        rcases List.mem_cons.mp hvalue with rfl | hvalue
        · have hvalue : value ∈ valuesOf name members := by simp [hfield]
          exact mem_of_mem_valuesOf hvalue
        · exact ih hvalue
    have hle := depth_le_depthMembers hmember
    omega
  | @array items _ _ =>
    rw [depth] at hdepth
    refine ⟨limit - 1, by omega, fun {value} hvalue => ?_⟩
    have hle : value.depth ≤ depthItems items := depth_le_depthItems (by simpa using hvalue)
    omega

theorem SpellsRecord.ne_null (h : SpellsRecord names document values) : document ≠ .null := by
  cases h <;> simp

/-- So does a name with content. -/
theorem opened_of_variant (hdepth : (ofMembers [(name, content)]).depth ≤ limit) :
    ∃ inner, limit = inner + 1 ∧ content.depth ≤ inner := by
  have h : (ofMembers [(name, content)]).depth = content.depth + 1 := by
    simp [ofMembers, depth, depthMembers]
  exact ⟨limit - 1, by omega, by omega⟩

end Json

open Json (SpellsRecord SpellsName ofMembers)

/-! ## Types and constants -/

/-- What is spelled in place of the types: an array of names, in any order and with repetitions, or
nothing if there are none. -/
inductive TypeSet.Spells : Option Json → TypeSet → Prop
  | missing : Spells none empty
  | names {items : List Json} {types : List RuntimeType} :
    List.Forall₂ (fun item type => SpellsName (Keyword.word type) item) items types →
    Spells (some (.array items)) (ofList types)

namespace TypeSet

variable {limit : Nat} {field : Option Json} {types : TypeSet}

theorem spells_of_ofField? (h : ofField? limit field = some types) : Spells field types := by
  cases field with
  | none =>
    rw [← Option.some.inj h]
    exact .missing
  | some document =>
    simp only [ofField?, ofJson?] at h
    split at h
    · obtain ⟨names, hnames, rfl⟩ := Option.map_eq_some_iff.mp h
      rw [Json.mapM_eq_some_iff] at hnames
      exact .names (hnames.imp fun _ _ h => (Json.keyword?_eq_some_iff.mp h).1)
    · cases h

theorem ofField?_of_spells (h : Spells field types)
    (hdepth : ∀ document, field = some document → document.depth ≤ limit) :
    ofField? limit field = some types := by
  cases h with
  | missing => rfl
  | @names items types hnames =>
    have hitems : Json.depthItems items + 1 ≤ limit := hdepth _ rfl
    obtain ⟨inner, rfl⟩ := Nat.exists_eq_add_of_le' (Nat.le_of_add_left_le hitems)
    have hdepths : ∀ item ∈ items, item.depth ≤ inner := fun item hitem =>
      Nat.le_trans (Json.depth_le_depthItems hitem) (Nat.le_of_succ_le_succ hitems)
    have hread : items.mapM (Json.keyword? inner) = some types :=
      Json.mapM_eq_some_iff.mpr (((List.forall₂_and_left _ _).mpr ⟨hdepths, hnames⟩).imp
        fun _ _ ⟨hdepth, hname⟩ => Json.keyword?_eq_some_iff.mpr ⟨hname, hdepth⟩)
    simp only [ofField?, ofJson?, hread]
    rfl

end TypeSet

/-- The documents that spell a constant: `null` is a name, all others have a value. -/
inductive Constant.Spells : Json → Constant → Prop
  | int (value : Int64) : Spells (ofMembers [("int", .ofInt value.toInt)]) (int value)
  | bool (value : Bool) : Spells (ofMembers [("bool", .bool value)]) (bool value)
  | str (value : String) : Spells (ofMembers [("str", .ofString value)]) (str value)
  | null {document : Json} : SpellsName "null" document → Spells document null

namespace Constant

variable {limit : Nat} {document : Json} {value : Constant}

theorem spells_of_ofJson? (h : ofJson? limit document = some value) : Spells document value := by
  unfold ofJson? at h
  split at h
  · rename_i hname
    obtain ⟨rfl, h⟩ := Option.ite_none_right_eq_some.mp h
    rw [← Option.some.inj h]
    exact .null (Json.unit?_eq_some_iff.mp hname).1
  · rename_i hvariant _
    obtain ⟨n, hn, rfl⟩ := Option.map_eq_some_iff.mp h
    rw [Json.variant?_eq_some hvariant, Json.eq_ofInt_of_int64? hn]
    exact .int n
  · rename_i hvariant _
    obtain ⟨b, hb, rfl⟩ := Option.map_eq_some_iff.mp h
    rw [Json.variant?_eq_some hvariant, Json.eq_bool_of_bool? hb]
    exact .bool b
  · rename_i hvariant _
    obtain ⟨s, hs, rfl⟩ := Option.map_eq_some_iff.mp h
    rw [Json.variant?_eq_some hvariant, Json.eq_ofString_of_text? hs]
    exact .str s
  · cases h

theorem ofJson?_of_spells (h : Spells document value) (hdepth : document.depth ≤ limit) :
    ofJson? limit document = some value := by
  cases h with
  | null hname =>
    unfold ofJson?
    rw [Json.unit?_eq_some_iff.mpr ⟨hname, hdepth⟩]
    rfl
  | int n => exact (takes_toJson (.int n) limit).trans (if_pos hdepth)
  | bool b => exact (takes_toJson (.bool b) limit).trans (if_pos hdepth)
  | str s => exact (takes_toJson (.str s) limit).trans (if_pos hdepth)

theorem Spells.ne_null (h : Spells document value) : document ≠ .null := by
  cases h with
  | null hname => cases hname <;> simp [Json.ofString, ofMembers]
  | _ => simp [ofMembers]

end Constant

/-! ## Expressions -/

namespace Expr

/-- The document spells a record of a kind, as it is spelled, and of these types. -/
def SpellsNode (document kind : Json) (types : TypeSet) : Prop :=
  ∃ field, SpellsRecord ["kind", "types"] document [some kind, field] ∧ TypeSet.Spells field types

/-- The documents that spell an expression. -/
inductive Spells : Json → Expr → Prop
  | constant {document content : Json} {value : Constant} {types : TypeSet} :
    SpellsNode document (ofMembers [("constant", content)]) types →
    Constant.Spells content value → Spells document (constant value types)
  | var {document : Json} {id : Identifier} {types : TypeSet} :
    SpellsNode document (ofMembers [("variable", .ofString id)]) types →
    Spells document (.var id types)
  | unary {document operation op' arg' : Json} {op : UnaryOp} {arg : Expr} {types : TypeSet} :
    SpellsNode document (ofMembers [("unary", operation)]) types →
    SpellsRecord ["op", "arg"] operation [some op', some arg'] →
    SpellsName (Keyword.word op) op' → Spells arg' arg → Spells document (unary op arg types)
  | binary {document operation op' left' right' : Json} {op : BinaryOp} {left right : Expr}
    {types : TypeSet} :
    SpellsNode document (ofMembers [("binary", operation)]) types →
    SpellsRecord ["op", "left", "right"] operation [some op', some left', some right'] →
    SpellsName (Keyword.word op) op' → Spells left' left → Spells right' right →
    Spells document (binary op left right types)
  | ternary {document operation op' left' middle' right' : Json} {op : TernaryOp}
    {left middle right : Expr} {types : TypeSet} :
    SpellsNode document (ofMembers [("ternary", operation)]) types →
    SpellsRecord ["op", "left", "middle", "right"] operation
      [some op', some left', some middle', some right'] →
    SpellsName (Keyword.word op) op' → Spells left' left → Spells middle' middle →
    Spells right' right → Spells document (ternary op left middle right types)
  | pushAny {document kind : Json} {types : TypeSet} :
    SpellsNode document kind types → SpellsName "push-any" kind → Spells document (pushAny types)
  | skip {document kind : Json} {types : TypeSet} :
    SpellsNode document kind types → SpellsName "skip" kind → Spells document (skip types)

variable {limit : Nat} {document kind operation : Json} {arity : String} {types : TypeSet}
  {e : Expr}

/-! ### What is read is spelled -/

/-- What is read within less than `limit` levels is spelled. -/
def ReadsSpelled (limit : Nat) : Prop :=
  ∀ inner < limit, ∀ {document e}, ofJson? inner document = some e → Spells document e

theorem spells_of_ofOperation? (hread : ReadsSpelled limit)
    (hnode : SpellsNode document (ofMembers [(arity, operation)]) types)
    (h : ofOperation? limit arity operation types = some e) : Spells document e := by
  cases limit with
  | zero =>
    unfold ofOperation? at h
    cases h
  | succ inner =>
    have hless : inner < inner + 1 := Nat.lt_succ_self inner
    unfold ofOperation? at h
    split at h
    · split at h
      · rename_i hrecord
        simp only [Option.bind_eq_bind, Option.bind_eq_some_iff, Option.pure_def] at h
        obtain ⟨op, hop, arg, harg, h⟩ := h
        rw [← Option.some.inj h]
        exact .unary hnode (Json.record?_eq_some_iff.mp hrecord)
          (Json.keyword?_eq_some_iff.mp hop).1 (hread inner hless harg)
      · cases h
    · split at h
      · rename_i hrecord
        simp only [Option.bind_eq_bind, Option.bind_eq_some_iff, Option.pure_def] at h
        obtain ⟨op, hop, left, hleft, right, hright, h⟩ := h
        rw [← Option.some.inj h]
        exact .binary hnode (Json.record?_eq_some_iff.mp hrecord)
          (Json.keyword?_eq_some_iff.mp hop).1 (hread inner hless hleft) (hread inner hless hright)
      · cases h
    · split at h
      · rename_i hrecord
        simp only [Option.bind_eq_bind, Option.bind_eq_some_iff, Option.pure_def] at h
        obtain ⟨op, hop, left, hleft, middle, hmiddle, right, hright, h⟩ := h
        rw [← Option.some.inj h]
        exact .ternary hnode (Json.record?_eq_some_iff.mp hrecord)
          (Json.keyword?_eq_some_iff.mp hop).1 (hread inner hless hleft) (hread inner hless hmiddle)
          (hread inner hless hright)
      · cases h
    · cases h

theorem spells_of_ofKind? (hread : ReadsSpelled limit) (hnode : SpellsNode document kind types)
    (h : ofKind? limit kind types = some e) : Spells document e := by
  unfold ofKind? at h
  split at h
  · rename_i hname
    rw [← Option.some.inj h]
    exact .pushAny hnode (Json.unit?_eq_some_iff.mp hname).1
  · rename_i hname
    rw [← Option.some.inj h]
    exact .skip hnode (Json.unit?_eq_some_iff.mp hname).1
  · cases h
  split at h
  · rename_i hvariant _
    rw [Json.variant?_eq_some hvariant] at hnode
    split at h
    · obtain ⟨value, hvalue, rfl⟩ := Option.map_eq_some_iff.mp h
      exact .constant hnode (Constant.spells_of_ofJson? hvalue)
    · obtain ⟨id, hid, rfl⟩ := Option.map_eq_some_iff.mp h
      rw [Json.eq_ofString_of_text? hid] at hnode
      exact .var hnode
    · exact spells_of_ofOperation? (fun inner hinner => hread inner (by omega)) hnode h
  · cases h

/-- **What is read of a document** is what it spells. -/
theorem spells_of_ofJson? (h : ofJson? limit document = some e) : Spells document e := by
  induction limit using Nat.strongRecOn generalizing document e with
  | ind limit ih =>
    cases limit with
    | zero =>
      rw [ofJson?] at h
      cases h
    | succ limit =>
      rw [ofJson?] at h
      split at h
      · rename_i kind field hrecord
        obtain ⟨types, htypes, hkind⟩ := Option.bind_eq_some_iff.mp h
        have hnode : SpellsNode document kind types :=
          ⟨field, Json.record?_eq_some_iff.mp hrecord, TypeSet.spells_of_ofField? htypes⟩
        exact spells_of_ofKind? (fun inner hinner => ih inner (by omega)) hnode hkind
      · cases h

/-! ### What is spelled is read -/

theorem ofJson?_of_spellsNode (hnode : SpellsNode document kind types)
    (hdepth : document.depth ≤ limit) :
    ∃ inner, kind.depth ≤ inner ∧ ofJson? limit document = ofKind? inner kind types := by
  obtain ⟨field, hrecord, htypes⟩ := hnode
  obtain ⟨inner, rfl, hparts⟩ := hrecord.opened hdepth
  have hfield : TypeSet.ofField? inner field = some types :=
    TypeSet.ofField?_of_spells htypes fun value hvalue => hparts (by simp [hvalue])
  refine ⟨inner, hparts List.mem_cons_self, ?_⟩
  rw [ofJson?, Json.record?_eq_some_iff.mpr hrecord]
  simp only [hfield, Option.bind_some]

/-- The levels of an operation: one for the record of the expression, one for the name of its kind
and one for the record of its operator and operands, whose parts are within the others. -/
theorem ofJson?_of_operation {names : List String} {values : List (Option Json)}
    (hnode : SpellsNode document (ofMembers [(arity, operation)]) types)
    (hrecord : SpellsRecord names operation values)
    (harity : arity ≠ "constant" ∧ arity ≠ "variable") (hdepth : document.depth ≤ limit) :
    ∃ inner, (∀ {value}, some value ∈ values → value.depth ≤ inner) ∧
      ofJson? limit document = ofOperation? (inner + 1) arity operation types := by
  obtain ⟨outer, hkind, hread⟩ := ofJson?_of_spellsNode hnode hdepth
  obtain ⟨middle, rfl, hoperation⟩ := Json.opened_of_variant hkind
  obtain ⟨inner, rfl, hparts⟩ := hrecord.opened hoperation
  refine ⟨inner, hparts, ?_⟩
  rw [hread]
  simp [ofKind?, Json.unit?_ofMembers hrecord.ne_null, Json.variant?_ofMembers, harity]

/-- **What a document spells** is read of it, as soon as there are enough levels. -/
theorem ofJson?_of_spells (h : Spells document e) (hdepth : document.depth ≤ limit) :
    ofJson? limit document = some e := by
  induction h generalizing limit with
  | constant hnode hvalue =>
    obtain ⟨inner, hkind, hread⟩ := ofJson?_of_spellsNode hnode hdepth
    obtain ⟨inner, rfl, hcontent⟩ := Json.opened_of_variant hkind
    rw [hread]
    unfold ofKind?
    rw [Json.unit?_ofMembers hvalue.ne_null]
    exact congrArg (Option.map _) (Constant.ofJson?_of_spells hvalue hcontent)
  | var hnode =>
    obtain ⟨inner, hkind, hread⟩ := ofJson?_of_spellsNode hnode hdepth
    obtain ⟨inner, rfl, -⟩ := Json.opened_of_variant hkind
    rw [hread]
    unfold ofKind?
    rw [Json.unit?_ofMembers (by simp [Json.ofString])]
    rfl
  | unary hnode hrecord hop _ ih =>
    obtain ⟨inner, hparts, hread⟩ := ofJson?_of_operation hnode hrecord (by decide) hdepth
    have hop := Json.keyword?_eq_some_iff.mpr ⟨hop, hparts (by simp)⟩
    rw [hread, ofOperation?, Json.record?_eq_some_iff.mpr hrecord]
    simp [hop, ih (hparts (by simp))]
  | binary hnode hrecord hop _ _ ihl ihr =>
    obtain ⟨inner, hparts, hread⟩ := ofJson?_of_operation hnode hrecord (by decide) hdepth
    have hop := Json.keyword?_eq_some_iff.mpr ⟨hop, hparts (by simp)⟩
    rw [hread, ofOperation?, Json.record?_eq_some_iff.mpr hrecord]
    simp [hop, ihl (hparts (by simp)), ihr (hparts (by simp))]
  | ternary hnode hrecord hop _ _ _ ihl ihm ihr =>
    obtain ⟨inner, hparts, hread⟩ := ofJson?_of_operation hnode hrecord (by decide) hdepth
    have hop := Json.keyword?_eq_some_iff.mpr ⟨hop, hparts (by simp)⟩
    rw [hread, ofOperation?, Json.record?_eq_some_iff.mpr hrecord]
    simp [hop, ihl (hparts (by simp)), ihm (hparts (by simp)), ihr (hparts (by simp))]
  | pushAny hnode hname =>
    obtain ⟨inner, hkind, hread⟩ := ofJson?_of_spellsNode hnode hdepth
    rw [hread]
    unfold ofKind?
    rw [Json.unit?_eq_some_iff.mpr ⟨hname, hkind⟩]
    rfl
  | skip hnode hname =>
    obtain ⟨inner, hkind, hread⟩ := ofJson?_of_spellsNode hnode hdepth
    rw [hread]
    unfold ofKind?
    rw [Json.unit?_eq_some_iff.mpr ⟨hname, hkind⟩]
    rfl

/-- **Decoding** finds the expression that a document spells, if there is one. -/
theorem decode_eq_some_iff : decode document = some e ↔ Spells document e :=
  ⟨spells_of_ofJson?, fun h => ofJson?_of_spells h (Nat.le_refl _)⟩

/-- More levels than a document nests make no difference. -/
theorem ofJson?_eq_decode (h : document.depth ≤ limit) :
    ofJson? limit document = decode document := by
  refine Option.ext fun e => ?_
  rw [decode_eq_some_iff]
  exact ⟨spells_of_ofJson?, fun hspells => ofJson?_of_spells hspells h⟩

theorem decode_toJson (e : Expr) : decode e.toJson = some e :=
  (ofJson?_toJson e _).trans (if_pos (Nat.le_refl _))

theorem toJson_injective : Function.Injective toJson := by
  intro a b h
  have hb := decode_toJson b
  rw [← h, decode_toJson] at hb
  exact Option.some.inj hb

/-- Documents that are encoded anew as `e` would be are those that spell `e`. -/
theorem decode_map_toJson_iff :
    (decode document).map toJson = some e.toJson ↔ Spells document e := by
  rw [← decode_eq_some_iff, Option.map_eq_some_iff]
  constructor
  · rintro ⟨e', he', htoJson⟩
    rw [he', toJson_injective htoJson]
  · intro h
    exact ⟨e, h, rfl⟩

end Expr

/-- **Decoding undoes encoding**, and finds the expression that a document spells if there is one,
within any number of levels that is enough for the document. What is written of an expression is one
of its spellings, no other expression is written so, and exactly the spellings of the expression
become that document when they are decoded and encoded again. -/
theorem decoding_undoes_encoding :
    (∀ e : Expr, Expr.decode e.toJson = some e) ∧
    (∀ (document : Json) (e : Expr), Expr.decode document = some e ↔ Expr.Spells document e) ∧
    (∀ (document : Json) (limit : Nat), document.depth ≤ limit →
      Expr.ofJson? limit document = Expr.decode document) ∧
    (∀ (document : Json) (e : Expr), Expr.Spells document e →
      Expr.Spells e.toJson e ∧ Expr.decode e.toJson = some e) ∧
    Function.Injective Expr.toJson ∧
    ∀ (document : Json) (e : Expr),
      (Expr.decode document).map Expr.toJson = some e.toJson ↔ Expr.Spells document e :=
  ⟨Expr.decode_toJson, fun _ _ => Expr.decode_eq_some_iff, fun _ _ => Expr.ofJson?_eq_decode,
    fun _ e _ => ⟨Expr.decode_eq_some_iff.mp (Expr.decode_toJson e), Expr.decode_toJson e⟩,
    Expr.toJson_injective, fun _ _ => Expr.decode_map_toJson_iff⟩

/-- A negated expression without a value, with its members turned round and another one before them,
the operation and the operand as arrays, the operator and the kind of the operand as objects, one
type repeated and the types of the operand left out. -/
theorem decoding_undoes_encoding_of_arrays :
    let operand : Json := .array [.ofMembers [("skip", .null)]]
    let operation : Json := .array [.ofMembers [("numeric-neg", .null)], operand]
    let types : Json := .array [.ofString "string", .ofString "numeric", .ofString "string"]
    let document : Json :=
      .ofMembers [("line", .ofInt 7), ("types", types), ("kind", .ofMembers [("unary", operation)])]
    let e : Expr := .unary .numericNeg (.skip .empty) (.ofList [.numeric, .string])
    Expr.Spells document e ∧ document.depth ≤ 127 ∧ Expr.ofJson? 127 document = some e ∧
      Expr.decode e.toJson = some e := by
  intro operand operation types document e
  obtain ⟨-, hdecode, hlevels, hagain, -⟩ := decoding_undoes_encoding
  have hread : Expr.decode document = some e := by decide
  have hspells := (hdecode document e).mp hread
  have hdepth : document.depth ≤ 127 := by decide
  exact ⟨hspells, hdepth, (hlevels document 127 hdepth).trans hread,
    (hagain document e hspells).2⟩

end AbstractDomains
