import Lox.Proofs.Grammar.Trees

/-!
# The constants of a tree

Every constant in an expression that was read is the one some token of the input stands for, also
where the reader has complained on the way and dropped parts of what it had read
(`parsedExpr_literals`).
-/

namespace Lox

mutual

/-- The constants in an expression, from left to right. -/
def Expr.literals : Expr → List Literal
  | .literal _ value => [value]
  | .grouping _ inner => inner.literals
  | .unary _ _ right => right.literals
  | .binary _ left _ right => left.literals ++ right.literals
  | .logical _ left _ right => left.literals ++ right.literals
  | .var _ _ => []
  | .assign _ _ value => value.literals
  | .call _ callee _ args => callee.literals ++ literalsOfArgs args
  | .get _ object _ => object.literals
  | .set _ object _ value => object.literals ++ value.literals
  | .this _ _ => []
  | .super _ _ _ => []
termination_by structural e => e

def literalsOfArgs : List Expr → List Literal
  | [] => []
  | e :: es => e.literals ++ literalsOfArgs es
termination_by structural es => es

end

/-- The constant that some token with `P` stands for. -/
def Literal.From (P : Token → Prop) (l : Literal) : Prop := ∃ t, P t ∧ literalOf? t.kind = some l

namespace Parse

variable {α : Type} {P : Token → Prop}

/-- The reader takes the constants of what it returns from tokens ahead. -/
def Draws (P : Token → Prop) (literals : α → List Literal) (p : Parse α) : Prop :=
  ∀ c, Ready P c → Spec True p c fun a _ => ∀ l ∈ literals a, l.From P

/-- The reader extends a tree by constants from tokens ahead. -/
def DrawsOn (P : Token → Prop) (p : Expr → Parse Expr) : Prop :=
  ∀ c e, Ready P c → (∀ l ∈ e.literals, l.From P) →
    Spec True (p e) c fun e' _ => ∀ l ∈ e'.literals, l.From P

abbrev DrawsExpr (P : Token → Prop) (p : Parse Expr) : Prop := Draws P Expr.literals p

theorem superAccess_draws (keyword : Token) : DrawsExpr P (superAccess keyword) :=
  fun _ _ => spec_expect fun _ _ _ _ => spec_expect fun _ _ _ _ =>
    spec_freshId (spec_pure (List.forall_mem_nil _))

theorem property_draws : DrawsOn P property :=
  fun _ _ _ he => spec_expect fun _ _ _ _ => spec_freshId (spec_pure he)

theorem assignment_draws {c : Cursor} {target value : Expr} {equals : Token}
    (ht : ∀ l ∈ target.literals, l.From P) (hv : ∀ l ∈ value.literals, l.From P) :
    Spec True (assignment target equals value) c fun e _ => ∀ l ∈ e.literals, l.From P := by
  unfold assignment
  split
  · exact spec_freshId (spec_pure hv)
  · exact spec_freshId (spec_pure (List.forall_mem_append.mpr ⟨ht, hv⟩))
  · exact spec_complain (spec_pure ht)

theorem join_literals (l : Level) (id : NodeId) (left right : Expr) (op : Token) :
    (l.join id left op right).literals = left.literals ++ right.literals := by
  cases l <;> rfl

/-- What is known of the readers of expressions at some fuel. -/
structure ExpressionDraws (P : Token → Prop) (n : Nat) : Prop where
  expression : DrawsExpr P (expression n)
  chain : ∀ l, DrawsExpr P (chain n l)
  chainRest : ∀ l, DrawsOn P (chainRest n l)
  operand : ∀ l, DrawsExpr P (operand n l)
  unary : DrawsExpr P (unary n)
  callRest : DrawsOn P (callRest n)
  arguments : Draws P literalsOfArgs (arguments n)
  argumentsFrom : ∀ count, Draws P literalsOfArgs (argumentsFrom n count)
  primary : DrawsExpr P (primary n)

variable {n : Nat}

theorem expression_draws (ih : ExpressionDraws P n) : DrawsExpr P (expression (n + 1)) := by
  intro c hc
  refine Spec.bind (ih.chain .or c hc) fun target d hcd ht => ?_
  refine spec_accept (fun _ => spec_pure ht) fun equals rest heq _ => ?_
  refine Spec.bind (ih.expression _ ((hc.onward hcd).rest heq)) fun value e _ hv => ?_
  exact assignment_draws ht hv

theorem chain_draws (ih : ExpressionDraws P n) (l : Level) : DrawsExpr P (chain (n + 1) l) :=
  fun c hc => Spec.bind (ih.operand l c hc) fun left d hcd hl =>
    ih.chainRest l d left (hc.onward hcd) hl

theorem chainRest_draws (ih : ExpressionDraws P n) (l : Level) :
    DrawsOn P (chainRest (n + 1) l) := by
  intro c left hc hl
  refine spec_acceptIf (fun _ => spec_pure hl) fun op rest heq _ => ?_
  refine Spec.bind (ih.operand l _ (hc.rest heq)) fun right d hcd hr => spec_freshId ?_
  have hd : Ready P d := (hc.rest heq).onward hcd
  refine ih.chainRest l _ _ hd ?_
  rw [join_literals]
  exact List.forall_mem_append.mpr ⟨hl, hr⟩

theorem operand_draws (ih : ExpressionDraws P n) (l : Level) :
    DrawsExpr P (operand (n + 1) l) := by
  unfold operand
  split
  · exact ih.chain _
  · exact ih.unary

theorem unary_draws (ih : ExpressionDraws P n) : DrawsExpr P (unary (n + 1)) := by
  intro c hc
  refine spec_acceptIf (fun _ => ?_) fun op rest heq _ => ?_
  · exact Spec.bind (ih.primary c hc) fun e d hcd he => ih.callRest d e (hc.onward hcd) he
  · exact Spec.bind (ih.unary _ (hc.rest heq)) fun right d _ hr => spec_freshId (spec_pure hr)

theorem callRest_draws (ih : ExpressionDraws P n) : DrawsOn P (callRest (n + 1)) := by
  intro c e hc he
  refine spec_accept (fun _ => ?_) fun opening rest heq _ => ?_
  · refine spec_accept (fun _ => spec_pure he) fun dot rest heq _ => ?_
    refine Spec.bind (property_draws _ e (hc.rest heq) he) fun object d hcd ho => ?_
    exact ih.callRest d object ((hc.rest heq).onward hcd) ho
  · refine Spec.bind (ih.arguments _ (hc.rest heq)) fun args d hcd ha => ?_
    have hd : Ready P d := (hc.rest heq).onward hcd
    refine spec_expect fun paren rest' heq' _ => spec_freshId ?_
    exact ih.callRest _ _ (hd.rest heq') (List.forall_mem_append.mpr ⟨he, ha⟩)

theorem arguments_draws (ih : ExpressionDraws P n) :
    Draws P literalsOfArgs (arguments (n + 1)) := by
  intro c hc
  refine spec_check ?_
  split
  · exact spec_pure (List.forall_mem_nil _)
  · exact ih.argumentsFrom 0 c hc

theorem argumentsFrom_draws (ih : ExpressionDraws P n) (count : Nat) :
    Draws P literalsOfArgs (argumentsFrom (n + 1) count) := by
  intro c hc
  rw [argumentsFrom]
  refine spec_checkArity_any fun complaints => ?_
  have hc' : Ready P { c with complaints := complaints } := hc
  refine Spec.bind (ih.expression _ hc') fun e d hcd he => ?_
  refine spec_accept (fun _ => spec_pure ?_) fun comma rest heq _ => ?_
  · exact List.forall_mem_append.mpr ⟨he, List.forall_mem_nil _⟩
  · refine Spec.bind (ih.argumentsFrom _ _ ((hc'.onward hcd).rest heq)) fun es d' _ hes => ?_
    exact spec_pure (List.forall_mem_append.mpr ⟨he, hes⟩)

theorem primary_draws (ih : ExpressionDraws P n) : DrawsExpr P (primary (n + 1)) := by
  intro c hc
  refine spec_acceptIf (fun _ => ?_) fun t rest heq ht => ?_
  · refine spec_accept (fun _ => ?_) fun keyword rest heq _ =>
      superAccess_draws keyword _ (hc.rest heq)
    refine spec_accept (fun _ => ?_) fun keyword rest _ _ =>
      spec_freshId (spec_pure (List.forall_mem_nil _))
    refine spec_accept (fun _ => ?_) fun name rest _ _ =>
      spec_freshId (spec_pure (List.forall_mem_nil _))
    refine spec_accept (fun _ => spec_failWith .expression) fun opening rest heq _ => ?_
    refine Spec.bind (ih.expression _ (hc.rest heq)) fun inner d _ hi => ?_
    exact spec_expect fun _ _ _ _ => spec_freshId (spec_pure hi)
  · -- The token was taken because it stands for a constant.
    obtain ⟨value, hvalue⟩ := Option.isSome_iff_exists.mp ht
    refine spec_freshId (spec_pure (List.forall_mem_singleton.mpr ⟨t, hc.head heq, ?_⟩))
    rw [hvalue, Option.getD_some]

theorem expressionDraws (P : Token → Prop) (n : Nat) : ExpressionDraws P n := by
  induction n with
  | zero =>
    have hdraws : ∀ {α : Type} (literals : α → List Literal), Draws P literals outOfFuel :=
      fun _ _ _ => spec_outOfFuel trivial
    have hdrawsOn : DrawsOn P fun _ => outOfFuel := fun _ _ _ _ => spec_outOfFuel trivial
    exact ⟨hdraws _, fun _ => hdraws _, fun _ => hdrawsOn, fun _ => hdraws _, hdraws _, hdrawsOn,
      hdraws _, fun _ => hdraws _, hdraws _⟩
  | succ n ih =>
    exact ⟨expression_draws ih, chain_draws ih, chainRest_draws ih, operand_draws ih,
      unary_draws ih, callRest_draws ih, arguments_draws ih, argumentsFrom_draws ih,
      primary_draws ih⟩

end Parse

variable {P : Token → Prop} {ts : List Token}

theorem wholeExpression_draws (n : Nat) : Parse.DrawsExpr P (Parse.wholeExpression n) := by
  intro c hc
  refine Parse.Spec.bind ((Parse.expressionDraws P n).expression c hc) fun e d _ he => ?_
  refine Parse.spec_atEnd ?_
  split
  · exact Parse.spec_pure he
  · exact Parse.spec_failWith _

/-- The constants of a single expression that was read stand in its tokens. -/
theorem parsedExpr_literals (h : ∀ t ∈ ts, P t) {made : Nat} {e : Expr}
    (he : (ParsedExpr.ofTokens ts made).expr? = some e) : ∀ l ∈ e.literals, l.From P := by
  have hspec := wholeExpression_draws (Parse.fuelFor ts.length) _ (ready_ofTokens h made)
  unfold ParsedExpr.ofTokens at he
  split at he
  · rename_i e' c heq
    rw [Option.some.injEq] at he
    exact he ▸ (hspec.of_ok heq).2
  · cases he
  · cases he

end Lox
