import AbstractDomains.Evaluation
import AbstractDomains.Proofs.Concretization
import AbstractDomains.Proofs.Semantics

/-!
# Evaluation is as sound as the hooks of the domain

`EvalSound S γ` and `AnswerSound S γ ops` are what a domain's hooks owe to the semantics `S` of
programs: the values of constants, variables and operators stand for all values a program can
compute, and the answers about conditions are right. Both carry over to all expressions, by
induction on how an expression came to its value and on how a condition is decided.

An equality is often refuted for less than it takes, so the answers are tracked per operator:
`Expr.deciders` are the binary operators a condition rests on, the connectives apart.

Results:
* `unequalIfIncomparable_agrees`: when an equality may be refuted.
* `onDefined_inv`, `eval_unary`, `eval_binary`, `eval_ternary`: evaluation as a chain of defined
  operands.
* `eval_sound_of_nodes`: evaluation is sound if binary operators are, where they are applied.
* `eval_sound`: the value found for an expression stands for every value it can take.
* `satisfies_sound`: the answer found for a condition is right about every value it can take.
-/

namespace AbstractDomains

open ValueDomain

section Hooks

variable {α V : Type} [DecidableEq α] [ValueDomain α]

/-- What the values found for constants, variables and operators owe to the semantics. -/
structure EvalSound (S : Semantics V) (γ : α → V → Prop) : Prop where
  null : ∀ {point a}, evalNull point = .ok a → γ a (S.constant .null)
  nonNull : ∀ {value point a}, value ≠ .null → evalNonNull value point = .ok a →
    γ a (S.constant value)
  variable_any : ∀ {id point a v}, evalVariable id point = .ok a → γ a v
  pushAny : ∀ {types point a v}, evalPushAny types point = .ok a →
    types.admits (S.typeOf v) = true → γ a v
  unary : ∀ {op a point r v w}, evalUnary op a point = .ok r → γ a v → S.unary op v = some w →
    γ r w
  binary : ∀ {op a b point r u v w}, evalBinary op a b point = .ok r → γ a u → γ b v →
    S.binary op u v = some w → γ r w
  ternary : ∀ {op a b c point r u v w x}, evalTernary op a b c point = .ok r → γ a u → γ b v →
    γ c w → S.ternary op u v w = some x → γ r x

/-- `EvalSound`, the binary operators apart. -/
structure EvalSoundApartFromBinary (S : Semantics V) (γ : α → V → Prop) : Prop where
  null : ∀ {point a}, evalNull point = .ok a → γ a (S.constant .null)
  nonNull : ∀ {value point a}, value ≠ .null → evalNonNull value point = .ok a →
    γ a (S.constant value)
  variable_any : ∀ {id point a v}, evalVariable id point = .ok a → γ a v
  pushAny : ∀ {types point a v}, evalPushAny types point = .ok a →
    types.admits (S.typeOf v) = true → γ a v
  unary : ∀ {op a point r v w}, evalUnary op a point = .ok r → γ a v → S.unary op v = some w →
    γ r w
  ternary : ∀ {op a b c point r u v w x}, evalTernary op a b c point = .ok r → γ a u → γ b v →
    γ c w → S.ternary op u v w = some x → γ r x

theorem EvalSound.apartFromBinary {S : Semantics V} {γ : α → V → Prop} (hD : EvalSound S γ) :
    EvalSoundApartFromBinary S γ where
  null := hD.null
  nonNull := hD.nonNull
  variable_any := hD.variable_any
  pushAny := hD.pushAny
  unary := hD.unary
  ternary := hD.ternary

theorem EvalSoundApartFromBinary.evalSound {S : Semantics V} {γ : α → V → Prop}
    (hD : EvalSoundApartFromBinary S γ)
    (hbinary : ∀ {op a b point r u v w}, evalBinary op a b point = .ok r → γ a u → γ b v →
      S.binary op u v = some w → γ r w) : EvalSound S γ where
  null := hD.null
  nonNull := hD.nonNull
  variable_any := hD.variable_any
  pushAny := hD.pushAny
  unary := hD.unary
  binary := hbinary
  ternary := hD.ternary

/-- Whether the answers for a binary operator are right about all values of its operands. -/
def Decides (S : Semantics V) (γ : α → V → Prop) (op : BinaryOp) : Prop :=
  ∀ {a b point s u v w}, satisfiesBinary op a b point = .ok s → γ a u → γ b v →
    S.binary op u v = some w → S.Agrees s w

/-- What the answers about conditions owe to the semantics; of the binary operators, those in
`ops` are asked to keep their part. -/
structure AnswerSound (S : Semantics V) (γ : α → V → Prop) (ops : BinaryOp → Prop) : Prop where
  answer_value : ∀ {a point s v}, satisfiesValue a point = .ok s → γ a v → S.Agrees s v
  answer_unary : ∀ {op a point s v w}, satisfiesUnary op a point = .ok s → γ a v →
    S.unary op v = some w → S.Agrees s w
  answer_binary : ∀ {op}, ops op → Decides S γ op
  answer_ternary : ∀ {op a b c point s u v w x}, satisfiesTernary op a b c point = .ok s → γ a u →
    γ b v → γ c w → S.ternary op u v w = some x → S.Agrees s x

/-- **A sound domain**: its lattice operations and all its hooks keep their part. -/
structure DomainSound (S : Semantics V) (γ : α → V → Prop) : Prop extends
    LatticeSound γ, EvalSound S γ, AnswerSound S γ fun _ => True

end Hooks

section Equality

variable {α V : Type} [DecidableEq α] [AbstractLattice α]

/-- An equality is refuted only for two values neither of which is below the other. -/
theorem unequalIfIncomparable_inv {a b : α} {s : Satisfiability}
    (h : unequalIfIncomparable a b = .ok s) :
    s = .unknown ∨ (s = .notSatisfied ∧ leq a b = .ok false ∧ leq b a = .ok false) := by
  obtain ⟨x, hx, h⟩ := Analysis.bind_eq_ok.mp h
  cases x with
  | true => exact .inl (Analysis.pure_eq_ok.mp h).symm
  | false =>
    obtain ⟨y, hy, h⟩ := Analysis.bind_eq_ok.mp h
    cases y with
    | true => exact .inl (Analysis.pure_eq_ok.mp h).symm
    | false => exact .inr ⟨(Analysis.pure_eq_ok.mp h).symm, hx, hy⟩

/-- **Refuting equalities of incomparable values is right** if such values have nothing in
common. -/
theorem unequalIfIncomparable_agrees {S : Semantics V} {γ : α → V → Prop} {a b : α} {u v w : V}
    (hdisjoint : ∀ x, leq a b = .ok false → leq b a = .ok false → γ a x → ¬ γ b x)
    {s : Satisfiability} (h : unequalIfIncomparable a b = .ok s) (hu : γ a u) (hv : γ b v)
    (hw : S.binary .comparisonEq u v = some w) : S.Agrees s w := by
  rcases unequalIfIncomparable_inv h with rfl | ⟨rfl, hab, hba⟩
  · exact trivial
  · rcases S.binary_eq hw with ⟨-, rfl⟩ | ⟨rfl, -⟩
    · exact absurd hv (hdisjoint u hab hba hu)
    · exact S.ofBool_ne.symm

end Equality

/-- The binary operators whose answers decide a condition. -/
def Expr.deciders : Expr → List BinaryOp
  | unary .logicalNot arg _ => arg.deciders
  | binary .logicalAnd left right _ => left.deciders ++ right.deciders
  | binary .logicalOr left right _ => left.deciders ++ right.deciders
  | binary op _ _ _ => [op]
  | _ => []

/-- The expression itself and its operands, at any depth. -/
def Expr.nodes : Expr → List Expr
  | unary op arg types => unary op arg types :: arg.nodes
  | binary op left right types => binary op left right types :: (left.nodes ++ right.nodes)
  | ternary op left middle right types =>
    ternary op left middle right types :: (left.nodes ++ (middle.nodes ++ right.nodes))
  | constant value types => [constant value types]
  | .var id types => [.var id types]
  | pushAny types => [pushAny types]
  | skip types => [skip types]

theorem Expr.mem_nodes_self (e : Expr) : e ∈ e.nodes := by
  cases e <;> exact List.mem_cons_self

/-- Nodes of a node are nodes. -/
theorem Expr.nodes_subset {e node : Expr} (h : node ∈ e.nodes) : node.nodes ⊆ e.nodes := by
  induction e with
  | constant value types | var id types | pushAny types | skip types =>
    rw [nodes, List.mem_singleton] at h
    exact h ▸ List.Subset.refl _
  | unary op arg types ih =>
    rcases List.mem_cons.mp h with rfl | h
    · exact List.Subset.refl _
    · exact List.Subset.trans (ih h) (List.subset_cons_self _ _)
  | binary op left right types ihl ihr =>
    rcases List.mem_cons.mp h with rfl | h
    · exact List.Subset.refl _
    · refine List.Subset.trans ?_ (List.subset_cons_self _ _)
      rcases List.mem_append.mp h with h | h
      · exact List.Subset.trans (ihl h) (List.subset_append_left _ _)
      · exact List.Subset.trans (ihr h) (List.subset_append_right _ _)
  | ternary op left middle right types ihl ihm ihr =>
    rcases List.mem_cons.mp h with rfl | h
    · exact List.Subset.refl _
    · refine List.Subset.trans ?_ (List.subset_cons_self _ _)
      rcases List.mem_append.mp h with h | h
      · exact List.Subset.trans (ihl h) (List.subset_append_left _ _)
      · refine List.Subset.trans ?_ (List.subset_append_right _ _)
        rcases List.mem_append.mp h with h | h
        · exact List.Subset.trans (ihm h) (List.subset_append_left _ _)
        · exact List.Subset.trans (ihr h) (List.subset_append_right _ _)

/-! ## Evaluation as a chain -/

section Chain

variable {α : Type} [DecidableEq α] [ValueDomain α]

/-- Goes on with the value of an operand unless it is bottom. -/
def onDefined (x : Analysis α) (f : α → Analysis α) : Analysis α := do
  let a ← x
  if isBottom a then return a
  f a

theorem onDefined_inv {x : Analysis α} {f : α → Analysis α} {b : α} (h : onDefined x f = .ok b) :
    ∃ a, x = .ok a ∧ ((isBottom a = true ∧ b = a) ∨ (isBottom a = false ∧ f a = .ok b)) := by
  obtain ⟨a, ha, h⟩ := Analysis.bind_eq_ok.mp h
  refine ⟨a, ha, ?_⟩
  split at h
  · rename_i hb
    exact .inl ⟨hb, (Analysis.pure_eq_ok.mp h).symm⟩
  · rename_i hb
    exact .inr ⟨Bool.eq_false_iff.mpr hb, h⟩

variable {lookup : Identifier → Option α} {point : ProgramPoint}

theorem eval_unary {op : UnaryOp} {arg : Expr} {types : TypeSet}
    (h : (Expr.unary op arg types).operandsFit = true) :
    eval lookup point (.unary op arg types) =
      onDefined (eval lookup point arg) fun a => evalUnary op a point := by
  rw [eval]
  exact if_pos h

theorem eval_binary {op : BinaryOp} {left right : Expr} {types : TypeSet}
    (h : (Expr.binary op left right types).operandsFit = true) :
    eval lookup point (.binary op left right types) =
      onDefined (eval lookup point left) fun l =>
        onDefined (eval lookup point right) fun r => evalBinary op l r point := by
  rw [eval]
  exact if_pos h

theorem eval_ternary {op : TernaryOp} {left middle right : Expr} {types : TypeSet}
    (h : (Expr.ternary op left middle right types).operandsFit = true) :
    eval lookup point (.ternary op left middle right types) =
      onDefined (eval lookup point left) fun l =>
        onDefined (eval lookup point middle) fun m =>
          onDefined (eval lookup point right) fun r => evalTernary op l m r point := by
  rw [eval]
  exact if_pos h

/-- An operation on an operand that does not fit is undefined. -/
theorem eval_of_misfit {e : Expr} (h : e.operandsFit ≠ true) : eval lookup point e = .ok bottom := by
  cases e with
  | constant | var | pushAny | skip => exact absurd rfl h
  | unary | binary | ternary =>
    rw [eval]
    exact if_neg h

end Chain

/-! ## Soundness -/

variable {α V : Type} [DecidableEq α] [ValueDomain α] {S : Semantics V} {γ : α → V → Prop}
  {lookup : Identifier → Option α} {point : ProgramPoint} {ρ : Store V} {e : Expr} {v : V}

/-- An operand that takes a value is not bottom. -/
theorem onDefined_of_gamma (hempty : ∀ {a}, isBottom a = true → ¬ γ a v) {x : Analysis α}
    {f : α → Analysis α} {b : α} (hx : ∀ {a}, x = .ok a → γ a v) (h : onDefined x f = .ok b) :
    ∃ a, x = .ok a ∧ γ a v ∧ f a = .ok b := by
  obtain ⟨a, ha, ⟨hb, -⟩ | ⟨-, hf⟩⟩ := onDefined_inv h
  · exact absurd (hx ha) (hempty hb)
  · exact ⟨a, ha, hx ha, hf⟩

theorem valueOf_sound (hany : ∀ {id point a v}, evalVariable id point = .ok a → γ a v)
    (hl : ∀ x a, lookup x = some a → γ a (ρ x)) {id : Identifier} {a : α}
    (h : valueOf lookup point id = .ok a) : γ a (ρ id) := by
  unfold valueOf at h
  split at h
  · rename_i b hb
    exact Except.ok.inj h ▸ hl id b hb
  · exact hany h

/-- A binary operator is applied at a node: its operands take the values `u` and `v`, which `a` and
`b` are found for, and it makes `w` of them. -/
structure Applied (S : Semantics V) (γ : α → V → Prop) (lookup : Identifier → Option α)
    (point : ProgramPoint) (ρ : Store V) (op : BinaryOp) (left right : Expr) (types : TypeSet)
    (a b : α) (u v w : V) : Prop where
  left_found : eval lookup point left = .ok a
  right_found : eval lookup point right = .ok b
  left_gamma : γ a u
  right_gamma : γ b v
  left_takes : S.Evaluates ρ left u
  right_takes : S.Evaluates ρ right v
  result : S.binary op u v = some w
  admits : types.admits (S.typeOf w) = true

/-- The node takes the value that the operator makes. -/
theorem Applied.takes {op : BinaryOp} {left right : Expr} {types : TypeSet} {a b : α} {u v w : V}
    (h : Applied S γ lookup point ρ op left right types a b u v w) :
    S.Evaluates ρ (.binary op left right types) w :=
  .binary h.left_takes h.right_takes h.result h.admits

/-- The value found for the node is the one found for the operator, as no operand is bottom. -/
theorem Applied.eval_eq (hempty : ∀ {a v}, isBottom a = true → ¬ γ a v) {op : BinaryOp}
    {left right : Expr} {types : TypeSet} {a b : α} {u v w : V}
    (h : Applied S γ lookup point ρ op left right types a b u v w) :
    eval lookup point (.binary op left right types) = evalBinary op a b point := by
  have hleft : isBottom a = false := Bool.eq_false_iff.mpr fun hb => hempty hb h.left_gamma
  have hright : isBottom b = false := Bool.eq_false_iff.mpr fun hb => hempty hb h.right_gamma
  rw [eval_binary h.takes.operandsFit, h.left_found, h.right_found]
  simp only [onDefined, bind, Except.bind, hleft, hright, Bool.false_eq_true, if_false]

/-- **Evaluation is sound if binary operators are sound where they are applied**, at the nodes of
the expression. -/
theorem eval_sound_of_nodes (hempty : ∀ {a v}, isBottom a = true → ¬ γ a v)
    (hD : EvalSoundApartFromBinary S γ) (hl : ∀ x a, lookup x = some a → γ a (ρ x))
    (hbinary : ∀ {op left right types a b c u v w}, .binary op left right types ∈ e.nodes →
      Applied S γ lookup point ρ op left right types a b u v w →
      evalBinary op a b point = .ok c → γ c w)
    (hv : S.Evaluates ρ e v) {a : α} (h : eval lookup point e = .ok a) : γ a v := by
  have hfit := hv.operandsFit
  induction hv generalizing a with
  | @constant value types _ =>
    cases value with
    | null => exact hD.null h
    | _ => exact hD.nonNull nofun h
  | var _ => exact valueOf_sound hD.variable_any hl h
  | pushAny ht => exact hD.pushAny h ht
  | @unary op arg types _ _ harg hop _ ih =>
    have hsub : arg.nodes ⊆ (Expr.unary op arg types).nodes := List.subset_cons_self _ _
    rw [eval_unary hfit] at h
    obtain ⟨x, -, hx, h⟩ := onDefined_of_gamma hempty
      (ih (fun hn => hbinary (hsub hn)) · harg.operandsFit) h
    exact hD.unary h hx hop
  | @binary op left right types _ _ _ hleft hright hop hadmits ihl ihr =>
    have hsubl : left.nodes ⊆ (Expr.binary op left right types).nodes :=
      List.Subset.trans (List.subset_append_left _ _) (List.subset_cons_self _ _)
    have hsubr : right.nodes ⊆ (Expr.binary op left right types).nodes :=
      List.Subset.trans (List.subset_append_right _ _) (List.subset_cons_self _ _)
    rw [eval_binary hfit] at h
    obtain ⟨l, hl, hlu, h⟩ := onDefined_of_gamma hempty
      (ihl (fun hn => hbinary (hsubl hn)) · hleft.operandsFit) h
    obtain ⟨r, hr, hrv, h⟩ := onDefined_of_gamma hempty
      (ihr (fun hn => hbinary (hsubr hn)) · hright.operandsFit) h
    exact hbinary (Expr.mem_nodes_self _) ⟨hl, hr, hlu, hrv, hleft, hright, hop, hadmits⟩ h
  | @ternary op left middle right types _ _ _ _ hleft hmiddle hright hop _ ihl ihm ihr =>
    have hsubl : left.nodes ⊆ (Expr.ternary op left middle right types).nodes :=
      List.Subset.trans (List.subset_append_left _ _) (List.subset_cons_self _ _)
    have hsub : middle.nodes ++ right.nodes ⊆ (Expr.ternary op left middle right types).nodes :=
      List.Subset.trans (List.subset_append_right _ _) (List.subset_cons_self _ _)
    rw [eval_ternary hfit] at h
    obtain ⟨l, -, hl, h⟩ := onDefined_of_gamma hempty
      (ihl (fun hn => hbinary (hsubl hn)) · hleft.operandsFit) h
    obtain ⟨m, -, hm, h⟩ := onDefined_of_gamma hempty
      (ihm (fun hn => hbinary (hsub (List.mem_append_left _ hn))) · hmiddle.operandsFit) h
    obtain ⟨r, -, hr, h⟩ := onDefined_of_gamma hempty
      (ihr (fun hn => hbinary (hsub (List.mem_append_right _ hn))) · hright.operandsFit) h
    exact hD.ternary h hl hm hr hop

/-- **The value found for an expression stands for every value it can take.** -/
theorem eval_sound (hempty : ∀ {a v}, isBottom a = true → ¬ γ a v) (hD : EvalSound S γ)
    (hl : ∀ x a, lookup x = some a → γ a (ρ x)) (hv : S.Evaluates ρ e v) {a : α}
    (h : eval lookup point e = .ok a) : γ a v :=
  eval_sound_of_nodes hempty hD.apartFromBinary hl
    (fun _ happ hc => hD.binary hc happ.left_gamma happ.right_gamma happ.result) hv h

/-- **The answer found for a condition is right about every value it can take.** -/
theorem satisfies_sound (hγ : JoinSound γ) (hD : EvalSound S γ) {ops : BinaryOp → Prop}
    (hA : AnswerSound S γ ops) (hl : ∀ x a, lookup x = some a → γ a (ρ x))
    (hops : ∀ op ∈ e.deciders, ops op) (hv : S.Evaluates ρ e v) {s : Satisfiability}
    (h : satisfies lookup point e = .ok s) : S.Agrees s v := by
  -- an operand that takes a value is not bottom
  have hnb : ∀ {e : Expr} {u : V} {a : α}, S.Evaluates ρ e u → eval lookup point e = .ok a →
      γ a u ∧ isBottom a = false := fun hu ha =>
    ⟨eval_sound hγ.empty hD hl hu ha,
      Bool.eq_false_iff.mpr fun hb => hγ.empty hb (eval_sound hγ.empty hD hl hu ha)⟩
  induction e using satisfies.induct generalizing v s with
  | case1 b types =>
    rw [satisfies, Except.ok.injEq] at h
    cases hv with
    | constant _ =>
      rw [← h, S.constant_bool]
      exact Semantics.agrees_ofBool b
  | case2 value types hne =>
    simp only [satisfies, Except.ok.injEq] at h
    exact h ▸ trivial
  | case3 types | case4 types =>
    rw [satisfies, Except.ok.injEq] at h
    exact h ▸ trivial
  | case5 id types =>
    rw [satisfies] at h
    obtain ⟨a, ha, h⟩ := Analysis.bind_eq_ok.mp h
    cases hv with
    | var _ => exact hA.answer_value h (valueOf_sound hD.variable_any hl ha)
  | case6 arg types ih =>
    rw [satisfies] at h
    obtain ⟨t, ht, h⟩ := Analysis.bind_eq_ok.mp h
    obtain ⟨b, hb, rfl⟩ := hv.not_inv
    exact Analysis.pure_eq_ok.mp h ▸ Semantics.agrees_negate (ih hops hb ht)
  | case7 left right types ihl ihr =>
    rw [satisfies] at h
    obtain ⟨t, ht, h⟩ := Analysis.bind_eq_ok.mp h
    obtain ⟨u, hu, h⟩ := Analysis.bind_eq_ok.mp h
    obtain ⟨a, b, ha, hb, rfl⟩ := hv.and_inv
    exact Analysis.pure_eq_ok.mp h ▸ Semantics.agrees_and
      (ihl (fun op hop => hops op (List.mem_append_left _ hop)) ha ht)
      (ihr (fun op hop => hops op (List.mem_append_right _ hop)) hb hu)
  | case8 left right types ihl ihr =>
    rw [satisfies] at h
    obtain ⟨t, ht, h⟩ := Analysis.bind_eq_ok.mp h
    obtain ⟨u, hu, h⟩ := Analysis.bind_eq_ok.mp h
    obtain ⟨a, b, ha, hb, rfl⟩ := hv.or_inv
    exact Analysis.pure_eq_ok.mp h ▸ Semantics.agrees_or
      (ihl (fun op hop => hops op (List.mem_append_left _ hop)) ha ht)
      (ihr (fun op hop => hops op (List.mem_append_right _ hop)) hb hu)
  | case9 op arg types hop hfit =>
    simp only [satisfies, hfit, if_true] at h
    obtain ⟨a, ha, h⟩ := Analysis.bind_eq_ok.mp h
    cases hv with
    | unary harg hu _ =>
      obtain ⟨hau, hb⟩ := hnb harg ha
      rw [hb] at h
      exact hA.answer_unary h hau hu
  | case11 op left right types hand hor hfit =>
    simp only [satisfies, hfit, if_true] at h
    obtain ⟨a, ha, h⟩ := Analysis.bind_eq_ok.mp h
    obtain ⟨b, hb, h⟩ := Analysis.bind_eq_ok.mp h
    cases hv with
    | binary hleft hright hop _ =>
      obtain ⟨hau, hba⟩ := hnb hleft ha
      obtain ⟨hbu, hbb⟩ := hnb hright hb
      rw [hba, hbb] at h
      have hd : op ∈ (Expr.binary op left right types).deciders := by
        simp only [Expr.deciders, List.mem_singleton]
      exact hA.answer_binary (hops op hd) h hau hbu hop
  | case13 op left middle right types hfit =>
    rw [satisfies, if_pos hfit] at h
    obtain ⟨a, ha, h⟩ := Analysis.bind_eq_ok.mp h
    obtain ⟨b, hb, h⟩ := Analysis.bind_eq_ok.mp h
    obtain ⟨c, hc, h⟩ := Analysis.bind_eq_ok.mp h
    cases hv with
    | ternary hleft hmiddle hright hop _ =>
      obtain ⟨hau, hba⟩ := hnb hleft ha
      obtain ⟨hbu, hbb⟩ := hnb hmiddle hb
      obtain ⟨hcu, hbc⟩ := hnb hright hc
      rw [hba, hbb, hbc] at h
      exact hA.answer_ternary h hau hbu hcu hop
  | case10 _ _ _ _ hmis | case12 _ _ _ _ _ _ hmis | case14 _ _ _ _ _ hmis =>
    exact absurd hv.operandsFit hmis

end AbstractDomains
