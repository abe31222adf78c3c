import AbstractDomains.Heap.Site
import AbstractDomains.Proofs.SearchTree
import AbstractDomains.Proofs.Text.ByteOrder

/-!
# The order of expressions and of site keys

An expression is spelled out as rows of numbers: the position of its kind, its fields from left to
right, its candidate types. A string is a row of bytes, a set of types the row of their positions,
and any other field that is no expression a single number. Expressions compare as their rows do, the
first row that differs deciding, and site keys as the row of the location with the rows of the field
after it. So both are totally ordered, and maps with such keys find what is stored in them.

Results:
* `Collates.append`, `Expr.collates`: what rows decide when others follow them.
* `TotallyOrdered`, `totallyOrdered`: the laws of the order.
* `keys_totally_ordered`: the order of expressions and site keys, and lookups by site key.
-/

namespace AbstractDomains

/-! ## Rows of numbers -/

/-- The bytes of a string. -/
def Text.row (s : String) : List Int :=
  (utf8Bytes s).map fun b => (b.toNat : Int)

/-- The position of a keyword. -/
def Keyword.row {α : Type} [DecidableEq α] [Keyword α] (a : α) : List Int :=
  [(rank a : Int)]

/-- The positions of the members in order. -/
def TypeSet.row (s : TypeSet) : List Int :=
  s.toList.map fun t => (Keyword.rank t : Int)

/-- The position of the kind of constant, and its value. -/
def Constant.rows : Constant → List (List Int)
  | int value => [[0], [value.toInt]]
  | bool value => [[1], [value.toInt]]
  | str value => [[2], Text.row value]
  | null => [[3]]

/-- The position of the kind of expression, its fields and its types. -/
def Expr.rows : Expr → List (List Int)
  | constant value types => [0] :: (value.rows ++ [types.row])
  | .var id types => [1] :: ([Text.row id] ++ [types.row])
  | unary op arg types => [2] :: ((Keyword.row op :: arg.rows) ++ [types.row])
  | binary op left right types =>
    [3] :: ((Keyword.row op :: (left.rows ++ right.rows)) ++ [types.row])
  | ternary op left middle right types =>
    [4] :: ((Keyword.row op :: (left.rows ++ (middle.rows ++ right.rows))) ++ [types.row])
  | pushAny types => [[5], types.row]
  | skip types => [[6], types.row]

/-- The location, and the field if there is one. -/
def SiteKey.rows (key : SiteKey) : List (List Int) :=
  Text.row key.location :: (match key.field with
    | none => []
    | some field => field.rows)

/-! ## What rows decide -/

section Compare

variable {α β : Type} [Ord α] [Ord β]

theorem compare_map {f : α → β} (hf : ∀ a b, compare (f a) (f b) = compare a b) (l m : List α) :
    compare (l.map f) (m.map f) = compare l m := by
  induction l generalizing m with
  | nil => cases m <;> rfl
  | cons a l ih =>
    cases m with
    | nil => rfl
    | cons b m => rw [List.map_cons, List.map_cons, List.compare_cons_cons, hf, ih,
        List.compare_cons_cons]

theorem compare_singleton (a b : α) : compare [a] [b] = compare a b := by
  rw [List.compare_cons_cons, List.compare_nil_nil, Ordering.then_eq]

theorem compare_natCast (m n : Nat) : compare (m : Int) (n : Int) = compare m n := by
  show compareOfLessAndEq (m : Int) n = compareOfLessAndEq m n
  simp only [compareOfLessAndEq, Int.ofNat_lt, Int.ofNat_inj]

theorem Text.compare_row (s t : String) : compare (row s) (row t) = compare s t := by
  rw [compare_utf8Bytes, row, row]
  refine compare_map (fun a b => ?_) _ _
  rw [compare_natCast, UInt8.compare_eq_toNat_compare_toNat]

theorem TypeSet.compare_row (s t : TypeSet) : compare s.row t.row = compare s t := by
  refine compare_map (fun a b => ?_) s.toList t.toList
  exact compare_natCast (Keyword.rank a) (Keyword.rank b)

theorem compare_toInt (a b : Int64) : compare a.toInt b.toInt = compare a b := by
  show compareOfLessAndEq a.toInt b.toInt = compareOfLessAndEq a b
  simp [compareOfLessAndEq, Int64.lt_iff_toInt_lt, Int64.toInt_inj]

end Compare

/-- Rows compare as `o`, and if they are equal what follows them decides. -/
def Collates (o : Ordering) (l m : List (List Int)) : Prop :=
  ∀ xs ys, compare (l ++ xs) (m ++ ys) = o.then (compare xs ys)

namespace Collates

variable {o o' : Ordering} {l m l' m' : List (List Int)} {x y : List Int}

theorem compare_eq (h : Collates o l m) : compare l m = o := by
  have hnil := h [] []
  rwa [List.append_nil, List.append_nil, List.compare_nil_nil, Ordering.then_eq] at hnil

theorem append (h : Collates o l m) (h' : Collates o' l' m') :
    Collates (o.then o') (l ++ l') (m ++ m') := by
  intro xs ys
  rw [List.append_assoc, List.append_assoc, h, h', Ordering.then_assoc]

theorem cons (hxy : compare x y = o) (h : Collates o' l m) :
    Collates (o.then o') (x :: l) (y :: m) := by
  intro xs ys
  rw [List.cons_append, List.cons_append, List.compare_cons_cons, hxy, h, Ordering.then_assoc]

theorem single (hxy : compare x y = o) : Collates o [x] [y] := by
  intro xs ys
  rw [List.singleton_append, List.singleton_append, List.compare_cons_cons, hxy]

/-- Equal first rows leave the decision to the others. -/
theorem same (h : Collates o l m) : Collates o (x :: l) (x :: m) :=
  cons (o := .eq) Std.ReflCmp.compare_self h

/-- First rows that differ decide. -/
theorem of_ne (hxy : compare x y = o) (hne : o ≠ .eq) : Collates o (x :: l) (y :: m) := by
  intro xs ys
  rw [List.cons_append, List.cons_append, List.compare_cons_cons, hxy]
  cases o with
  | eq => exact absurd rfl hne
  | _ => rfl

/-- Things of different kinds compare as the positions of their kinds, which come first; only equal
kinds are left to check. -/
theorem of_rank {α : Type} {cmp : α → α → Ordering} {rows : α → List (List Int)} (rank : α → Nat)
    (hrows : ∀ a, ∃ rest, rows a = [(rank a : Int)] :: rest)
    (hcmp : ∀ {a b}, rank a ≠ rank b → cmp a b = compare (rank a) (rank b)) {a b : α}
    (same : rank a = rank b → Collates (cmp a b) (rows a) (rows b)) :
    Collates (cmp a b) (rows a) (rows b) := by
  by_cases hrank : rank a = rank b
  · exact same hrank
  · obtain ⟨l, hl⟩ := hrows a
    obtain ⟨m, hm⟩ := hrows b
    rw [hcmp hrank, hl, hm]
    refine of_ne ?_ fun heq => hrank (Nat.compare_eq_eq.mp heq)
    rw [compare_singleton, compare_natCast]

end Collates

theorem Keyword.compare_row {α : Type} [DecidableEq α] [Keyword α] (a b : α) :
    compare (row a) (row b) = ord.compare a b := by
  rw [row, row, compare_singleton, compare_natCast]
  rfl

namespace Constant

theorem compare_of_rank_ne {a b : Constant} (h : a.rank ≠ b.rank) :
    compare a b = compare a.rank b.rank := by
  show (Ord.compare a.rank b.rank).then _ = _
  cases hrank : Ord.compare a.rank b.rank with
  | eq => exact absurd (Nat.compare_eq_eq.mp hrank) h
  | _ => rfl

theorem exists_rows (a : Constant) : ∃ rest, a.rows = [(a.rank : Int)] :: rest := by
  cases a <;> exact ⟨_, rfl⟩

/-- **Constants compare as their rows do.** -/
theorem collates (a b : Constant) : Collates (compare a b) a.rows b.rows := by
  refine .of_rank rank exists_rows compare_of_rank_ne fun hrank => ?_
  cases a with
  | int m =>
    cases b <;> cases hrank
    rename_i n
    have hcmp : compare (int m) (int n) = compare m n := Ordering.then_eq
    rw [hcmp]
    exact .same (.single ((compare_singleton _ _).trans (compare_toInt m n)))
  | bool x =>
    cases b <;> cases hrank
    rename_i y
    refine .same (.single ?_)
    cases x <;> cases y <;> rfl
  | str s =>
    cases b <;> cases hrank
    exact .same (.single (Text.compare_row s _))
  | null =>
    cases b <;> cases hrank
    exact .single rfl

end Constant

namespace Expr

theorem exists_rows (a : Expr) : ∃ rest, a.rows = [(a.rank : Int)] :: rest := by
  cases a <;> exact ⟨_, rfl⟩

/-- **Expressions compare as their rows do.** -/
theorem collates (a b : Expr) : Collates (a.compare b) a.rows b.rows := by
  have htypes : ∀ {s t : TypeSet}, Collates (compare s t) [s.row] [t.row] :=
    .single (TypeSet.compare_row _ _)
  induction a generalizing b with
  | constant value types =>
    refine .of_rank rank exists_rows (compare_of_rank_ne _ _) fun hrank => ?_
    cases b <;> cases hrank
    exact .same ((value.collates _).append htypes)
  | var id types =>
    refine .of_rank rank exists_rows (compare_of_rank_ne _ _) fun hrank => ?_
    cases b <;> cases hrank
    exact .same (.append (.single (Text.compare_row _ _)) htypes)
  | unary op arg types ih =>
    refine .of_rank rank exists_rows (compare_of_rank_ne _ _) fun hrank => ?_
    cases b <;> cases hrank
    exact .same (.append (.cons (Keyword.compare_row _ _) (ih _)) htypes)
  | binary op left right types ihl ihr =>
    refine .of_rank rank exists_rows (compare_of_rank_ne _ _) fun hrank => ?_
    cases b <;> cases hrank
    exact .same (.append (.cons (Keyword.compare_row _ _) (.append (ihl _) (ihr _))) htypes)
  | ternary op left middle right types ihl ihm ihr =>
    refine .of_rank rank exists_rows (compare_of_rank_ne _ _) fun hrank => ?_
    cases b <;> cases hrank
    exact .same (.append (.cons (Keyword.compare_row _ _)
      (.append (ihl _) (.append (ihm _) (ihr _)))) htypes)
  | pushAny types | skip types =>
    refine .of_rank rank exists_rows (compare_of_rank_ne _ _) fun hrank => ?_
    cases b <;> cases hrank
    exact .same htypes

theorem compare_rows (a b : Expr) : compare a b = compare a.rows b.rows :=
  (collates a b).compare_eq.symm

end Expr

/-- **Site keys compare as their rows do**: nothing comes before any rows of a field. -/
theorem SiteKey.compare_rows (k l : SiteKey) : compare k l = compare k.rows l.rows := by
  obtain ⟨location, field⟩ := k
  obtain ⟨location', field'⟩ := l
  show (compare location location').then (compare field field') = _
  have hlocation := Text.compare_row location location'
  cases field with
  | none =>
    cases field' with
    | none => exact (Collates.cons hlocation fun _ _ => rfl).compare_eq.symm
    | some field' =>
      obtain ⟨rest, hrest⟩ := field'.exists_rows
      show _ = compare [Text.row location] (Text.row location' :: field'.rows)
      rw [List.compare_cons_cons, hlocation, hrest]
      rfl
  | some field =>
    cases field' with
    | none =>
      obtain ⟨rest, hrest⟩ := field.exists_rows
      show _ = compare (Text.row location :: field.rows) [Text.row location']
      rw [List.compare_cons_cons, hlocation, hrest]
      rfl
    | some field' => exact (Collates.cons hlocation (field.collates field')).compare_eq.symm

/-! ## The laws of the order -/

/-- Comparing is a total order, in which only equal things compare as equal. -/
structure TotallyOrdered (α : Type) [Ord α] : Prop where
  total : ∀ a b : α, (compare a b).isLE ∨ (compare b a).isLE
  antisymm : ∀ a b : α, (compare a b).isLE → (compare b a).isLE → a = b
  trans : ∀ a b c : α, (compare a b).isLE → (compare b c).isLE → (compare a c).isLE
  eq_iff : ∀ a b : α, compare a b = .eq ↔ a = b
  swap : ∀ a b : α, compare b a = (compare a b).swap

theorem totallyOrdered (α : Type) [Ord α] [Std.TransOrd α] [Std.LawfulEqOrd α] :
    TotallyOrdered α where
  total a b := by
    have hswap : compare b a = (compare a b).swap := Std.OrientedCmp.eq_swap
    rw [hswap]
    cases compare a b <;> simp
  antisymm a b hab hba := Std.LawfulEqOrd.eq_of_compare (Std.OrientedCmp.isLE_antisymm hab hba)
  trans _ _ _ := Std.TransCmp.isLE_trans
  eq_iff _ _ := Std.LawfulEqOrd.compare_eq_iff_eq
  swap _ _ := Std.OrientedCmp.eq_swap

/-- **Expressions and site keys are totally ordered**, by the rows that spell them out: position of
the kind, fields from left to right and types, strings as bytes and types in order; locations before
fields, and no field before any. So under each site key a map finds what was stored there, also by
searching a tree. -/
theorem keys_totally_ordered :
    (∀ a b : Expr, compare a b = compare a.rows b.rows) ∧ TotallyOrdered Expr ∧
      (∀ k l : SiteKey, compare k l = compare k.rows l.rows) ∧ TotallyOrdered SiteKey ∧
      ∀ α : Type, FinMap.FindsEntries SiteKey α :=
  ⟨Expr.compare_rows, totallyOrdered Expr, SiteKey.compare_rows, totallyOrdered SiteKey,
    fun _ => FinMap.findsEntries⟩

/-- The head of a list, a node and the field of a node, in this order, and a tree with the node at
its root. -/
theorem keys_totally_ordered_of_list :
    let head : SiteKey := ⟨"head", none⟩
    let node : SiteKey := ⟨"node", none⟩
    let next : SiteKey := ⟨"node", some (.ofConstant (.str "next"))⟩
    let sites : FinMap SiteKey Strength :=
      .ofList [(next, .weak), (node, .weak), (head, .strong)]
    let tree : BinaryTree (SiteKey × Strength) :=
      .node (node, .weak) (.node (head, .strong) .nil .nil) (.node (next, .weak) .nil .nil)
    (compare head node).isLE ∧ (compare node next).isLE ∧ (compare head next).isLE ∧
      SearchTree.inorder tree = sites.entries ∧
      SearchTree.search next tree = sites.get? next ∧ (next, .weak) ∈ sites.entries := by
  intro head node next sites tree
  obtain ⟨-, -, -, horder, hfinds⟩ := keys_totally_ordered
  have hhead : (compare head node).isLE := by decide
  have hnode : (compare node next).isLE := by decide
  have htree : SearchTree.inorder tree = sites.entries := by decide
  have hnext : sites.get? next = some .weak := by decide
  exact ⟨hhead, hnode, horder.trans head node next hhead hnode, htree,
    (hfinds Strength).search_eq sites tree htree next,
    ((hfinds Strength).get?_eq_some_iff sites next .weak).mp hnext⟩

end AbstractDomains
