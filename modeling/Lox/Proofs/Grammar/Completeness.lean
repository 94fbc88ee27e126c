import Lox.Proofs.Grammar.Prediction

/-!
# Everything in the language is accepted

On a word of the rule it is named for, a reader takes just that word, if what follows cannot be
taken for a part of it. As before this goes by induction on the fuel, for all the readers of
expressions at once, and then for all the readers of declarations and statements.

Two things do not follow the grammar. What stands before an equals sign is read as a chain of
operators, so the readers of chains have to return something that can be assigned to for it. And an
`else` is taken by the innermost `if`, so a statement is read along a derivation that is `Nested`.
-/

namespace Lox

namespace Parse

variable {n : Nat} {rest : Word}

/-! ### Expressions -/

/-- What is known of the readers of expressions at some fuel. -/
structure ExpressionTakes (n : Nat) : Prop where
  expression : ∀ w rest, Derives (.rule .expression) w → Closes rest → 32 * w.length + 15 ≤ n →
    Takes (expression n) (w ++ rest) rest fun _ => True
  chain : ∀ l w rest, Derives (.rule l.rule) w → Stops (l.depth + 1) rest →
    32 * w.length + (2 * l.depth + 4) ≤ n → Takes (chain n l) (w ++ rest) rest fun _ => True
  chainTarget : ∀ l w rest, Derives .target w → Stops (l.depth + 1) rest →
    32 * w.length + (2 * l.depth + 4) ≤ n →
    Takes (Parse.chain n l) (w ++ rest) rest fun e => e.isTarget = true
  chainRest : ∀ l left w rest, Derives (.many l.step) w → Stops (l.depth + 1) rest →
    32 * w.length + 1 ≤ n → Takes (chainRest n l left) (w ++ rest) rest fun e => w = [] → e = left
  operand : ∀ l w rest, Derives (.rule l.operandRule) w → Stops l.depth rest →
    32 * w.length + (2 * l.depth + 3) ≤ n → Takes (operand n l) (w ++ rest) rest fun _ => True
  operandTarget : ∀ l w rest, Derives .target w → Stops l.depth rest →
    32 * w.length + (2 * l.depth + 3) ≤ n →
    Takes (Parse.operand n l) (w ++ rest) rest fun e => e.isTarget = true
  unary : ∀ w rest, Derives (.rule .unary) w → Stops 0 rest → 32 * w.length + 2 ≤ n →
    Takes (unary n) (w ++ rest) rest fun _ => True
  unaryTarget : ∀ w rest, Derives .target w → Stops 0 rest → 32 * w.length + 2 ≤ n →
    Takes (Parse.unary n) (w ++ rest) rest fun e => e.isTarget = true
  callRest : ∀ e w rest, Derives (.many .suffix) w → Stops 0 rest → 32 * w.length + 1 ≤ n →
    Takes (callRest n e) (w ++ rest) rest fun e' =>
      (w = [] → e' = e) ∧ (w.getLast? = some .identifier → e'.isTarget = true)
  arguments : ∀ w rest, Derives (.opt (.rule .arguments)) w → 32 * w.length + 17 ≤ n →
    Takes (arguments n) (w ++ .symbol .rightParen :: rest) (.symbol .rightParen :: rest)
      fun _ => True
  argumentsFrom : ∀ count w rest, count < maxArity →
    Derives (.listOf (maxArity - 1 - count) (.rule .expression)) w → 32 * w.length + 16 ≤ n →
    Takes (argumentsFrom n count) (w ++ .symbol .rightParen :: rest) (.symbol .rightParen :: rest)
      fun _ => True
  primary : ∀ w rest, Derives (.rule .primary) w → 32 * w.length + 1 ≤ n →
    Takes (primary n) (w ++ rest) rest fun e => w = [.identifier] → e.isTarget = true

theorem assignment_takes {target value : Expr} {equals : Token} (htarget : target.isTarget = true) :
    Takes (assignment target equals value) rest rest fun _ => True := by
  unfold assignment
  split
  · exact takes_freshId fun id => takes_pure trivial
  · exact takes_freshId fun id => takes_pure trivial
  · rename_i hvar hget
    unfold Expr.isTarget at htarget
    split at htarget
    · exact absurd rfl (hvar _ _)
    · exact absurd rfl (hget _ _ _)
    · simp at htarget

theorem expression_takes (ih : ExpressionTakes n) (w rest : Word)
    (hw : Derives (.rule .expression) w) (hrest : Closes rest) (hn : 32 * w.length + 15 ≤ n + 1) :
    Takes (expression (n + 1)) (w ++ rest) rest fun _ => True := by
  rw [expression]
  rcases derives_expression.mp hw with ⟨u, v, rfl, hu, hv⟩ | hchain
  · simp only [List.length_append, List.length_cons] at hn
    rw [List.append_assoc, List.cons_append]
    -- The target is read as a chain, which the equals sign ends on every level.
    refine (ih.chainTarget .or u _ hu (stops_equal _ _) (by simp only [Level.depth]; omega)).bind
      fun target htarget => ?_
    refine takes_accept_some fun equals => (ih.expression v rest hv hrest (by omega)).bind ?_
    exact fun value _ => assignment_takes htarget
  · refine (ih.chain .or w rest hchain hrest.stops (by simp only [Level.depth]; omega)).bind
      fun e _ => ?_
    exact takes_accept_none hrest.not_equal (takes_pure trivial)

theorem chain_takes (ih : ExpressionTakes n) (l : Level) (w rest : Word)
    (hw : Derives (.rule l.rule) w) (hrest : Stops (l.depth + 1) rest)
    (hn : 32 * w.length + (2 * l.depth + 4) ≤ n + 1) :
    Takes (chain (n + 1) l) (w ++ rest) rest fun _ => True := by
  rw [chain]
  obtain ⟨u, v, rfl, hu, hv⟩ := derives_chain.mp hw
  rw [List.length_append] at hn
  rw [List.append_assoc]
  refine (ih.operand l u _ hu (stops_steps hv hrest) (by omega)).bind fun left _ => ?_
  exact (ih.chainRest l left v rest hv hrest (by omega)).mono fun _ _ => trivial

theorem chainTarget_takes (ih : ExpressionTakes n) (l : Level) (w rest : Word)
    (hw : Derives .target w) (hrest : Stops (l.depth + 1) rest)
    (hn : 32 * w.length + (2 * l.depth + 4) ≤ n + 1) :
    Takes (chain (n + 1) l) (w ++ rest) rest fun e => e.isTarget = true := by
  rw [chain]
  refine (ih.operandTarget l w rest hw (hrest.mono (Nat.le_succ _)) (by omega)).bind
    fun left hleft => ?_
  exact (ih.chainRest l left [] rest .done hrest (by rw [List.length_nil]; omega)).mono
    fun e he => he rfl ▸ hleft

theorem chainRest_takes (ih : ExpressionTakes n) (l : Level) (left : Expr) (w rest : Word)
    (hw : Derives (.many l.step) w) (hrest : Stops (l.depth + 1) rest)
    (hn : 32 * w.length + 1 ≤ n + 1) :
    Takes (chainRest (n + 1) l left) (w ++ rest) rest fun e => w = [] → e = left := by
  rw [chainRest]
  rcases derives_many.mp hw with rfl | ⟨_, v, rfl, hstep, hv⟩
  · exact takes_acceptIf_none (hrest.not_operator (Nat.lt_succ_self _)) (takes_pure fun _ => rfl)
  · obtain ⟨k, u, rfl, hk, hu⟩ := derives_step.mp hstep
    simp only [List.cons_append, List.length_cons, List.length_append] at hn
    rw [List.append_assoc, List.cons_append]
    refine takes_acceptIf_some hk fun op => ?_
    have hdepth : l.depth < 6 := by cases l <;> simp [Level.depth]
    refine (ih.operand l u _ hu (stops_steps hv hrest) (by omega)).bind fun right _ => ?_
    refine takes_freshId fun id => ?_
    refine (ih.chainRest l _ v rest hv hrest (by omega)).mono fun e _ hnil => ?_
    exact absurd hnil (by simp)

theorem operand_takes (ih : ExpressionTakes n) (l : Level) (w rest : Word)
    (hw : Derives (.rule l.operandRule) w) (hrest : Stops l.depth rest)
    (hn : 32 * w.length + (2 * l.depth + 3) ≤ n + 1) :
    Takes (operand (n + 1) l) (w ++ rest) rest fun _ => True := by
  rw [operand]
  cases hl : l.tighter? with
  | some l' =>
    obtain ⟨hrule, hdepth⟩ := Level.of_tighter? hl
    exact ih.chain l' w rest (hrule ▸ hw) (hdepth ▸ hrest) (by omega)
  | none =>
    obtain rfl := Level.eq_factor hl
    exact ih.unary w rest hw hrest (by omega)

theorem operandTarget_takes (ih : ExpressionTakes n) (l : Level) (w rest : Word)
    (hw : Derives .target w) (hrest : Stops l.depth rest)
    (hn : 32 * w.length + (2 * l.depth + 3) ≤ n + 1) :
    Takes (operand (n + 1) l) (w ++ rest) rest fun e => e.isTarget = true := by
  rw [operand]
  cases hl : l.tighter? with
  | some l' =>
    obtain ⟨-, hdepth⟩ := Level.of_tighter? hl
    exact ih.chainTarget l' w rest hw (hdepth ▸ hrest) (by omega)
  | none =>
    obtain rfl := Level.eq_factor hl
    exact ih.unaryTarget w rest hw hrest (by omega)

theorem call_takes (ih : ExpressionTakes n) (u v rest : Word) (hu : Derives (.rule .primary) u)
    (hv : Derives (.many .suffix) v) (hrest : Stops 0 rest)
    (hn : 32 * (u.length + v.length) + 2 ≤ n + 1) :
    Takes (unary (n + 1)) (u ++ (v ++ rest)) rest fun e =>
      v = [] ∧ u = [.identifier] ∨ v.getLast? = some .identifier → e.isTarget = true := by
  rw [unary]
  have hfirst := (primary_begins hu).append (v ++ rest)
  refine takes_acceptIf_none (fun k hk => ?_) ?_
  · have hopens := hfirst.of_head? hk
    unfold opensPrimary at hopens
    split at hopens <;> simp [isUnaryOperator] at hopens ⊢
  · refine (ih.primary u (v ++ rest) hu (by omega)).bind fun e he => ?_
    refine (ih.callRest e v rest hv hrest (by omega)).mono fun e' he' => ?_
    rintro (⟨hnil, hname⟩ | hlast)
    · rw [he'.1 hnil]
      exact he hname
    · exact he'.2 hlast

theorem unary_takes (ih : ExpressionTakes n) (w rest : Word) (hw : Derives (.rule .unary) w)
    (hrest : Stops 0 rest) (hn : 32 * w.length + 2 ≤ n + 1) :
    Takes (unary (n + 1)) (w ++ rest) rest fun _ => True := by
  rcases derives_unary.mp hw with ⟨k, u, rfl, hk, hu⟩ | hcall
  · rw [List.length_cons] at hn
    rw [unary, List.cons_append]
    refine takes_acceptIf_some hk fun op => (ih.unary u rest hu hrest (by omega)).bind ?_
    exact fun right _ => takes_freshId fun id => takes_pure trivial
  · obtain ⟨u, v, rfl, hu, hv⟩ := derives_call.mp hcall
    rw [List.length_append] at hn
    rw [List.append_assoc]
    exact (call_takes ih u v rest hu hv hrest hn).mono fun _ _ => trivial

theorem unaryTarget_takes (ih : ExpressionTakes n) (w rest : Word) (hw : Derives .target w)
    (hrest : Stops 0 rest) (hn : 32 * w.length + 2 ≤ n + 1) :
    Takes (unary (n + 1)) (w ++ rest) rest fun e => e.isTarget = true := by
  rcases derives_target.mp hw with rfl | ⟨x, rfl, hx⟩
  · have hname : Derives (.rule .primary) [.identifier] := derives_primary.mpr (by simp)
    exact (call_takes ih _ [] rest hname .done hrest hn).mono fun e he => he (by simp)
  · obtain ⟨u, v, rfl, hu, hv⟩ := derives_call.mp hx
    have hget : Derives .suffix [.symbol .dot, .identifier] := derives_suffix.mpr (Or.inr rfl)
    simp only [List.length_append] at hn
    rw [List.append_assoc, List.append_assoc, ← List.append_assoc v]
    refine (call_takes ih u _ rest hu (hv.snoc hget) hrest ?_).mono fun e he => he (by simp)
    rw [List.length_append]
    omega

theorem callRest_takes (ih : ExpressionTakes n) (e : Expr) (w rest : Word)
    (hw : Derives (.many .suffix) w) (hrest : Stops 0 rest) (hn : 32 * w.length + 1 ≤ n + 1) :
    Takes (callRest (n + 1) e) (w ++ rest) rest fun e' =>
      (w = [] → e' = e) ∧ (w.getLast? = some .identifier → e'.isTarget = true) := by
  rw [callRest]
  rcases derives_many.mp hw with rfl | ⟨_, v, rfl, hsuffix, hv⟩
  · refine takes_accept_none hrest.head?_ne_leftParen ?_
    exact takes_accept_none hrest.head?_ne_dot (takes_pure (by simp))
  · rcases derives_suffix.mp hsuffix with ⟨u, rfl, hu⟩ | rfl
    · simp only [List.cons_append, List.length_cons, List.length_append, List.append_assoc,
        List.nil_append] at hn ⊢
      refine takes_accept_some fun _ => (ih.arguments u _ hu (by omega)).bind fun args _ => ?_
      refine takes_expect fun paren => takes_freshId fun id => ?_
      refine (ih.callRest _ v rest hv hrest (by omega)).mono
        fun e' he' => ⟨by simp, fun hlast => ?_⟩
      -- A call in the last place leaves nothing to assign to, but ends with a parenthesis.
      cases v with
      | nil => simp [List.getLast?_cons] at hlast
      | cons k v => exact he'.2 (by simpa [List.getLast?_cons] using hlast)
    · simp only [List.cons_append, List.length_cons, List.nil_append] at hn ⊢
      refine takes_accept_none (by simp) (takes_accept_some fun _ => ?_)
      have hproperty : Takes (property e) (.identifier :: (v ++ rest)) (v ++ rest)
          fun object => object.isTarget = true :=
        takes_expect fun name => takes_freshId fun id => takes_pure rfl
      refine hproperty.bind fun object hobject => ?_
      refine (ih.callRest object v rest hv hrest (by omega)).mono
        fun e' he' => ⟨by simp, fun hlast => ?_⟩
      cases v with
      | nil => exact he'.1 rfl ▸ hobject
      | cons k v => exact he'.2 (by simpa [List.getLast?_cons] using hlast)

theorem arguments_takes (ih : ExpressionTakes n) (w rest : Word)
    (hw : Derives (.opt (.rule .arguments)) w) (hn : 32 * w.length + 17 ≤ n + 1) :
    Takes (arguments (n + 1)) (w ++ .symbol .rightParen :: rest) (.symbol .rightParen :: rest)
      fun _ => True := by
  rw [arguments]
  rcases derives_opt.mp hw with hargs | rfl
  · have hlist := derives_rule.mp hargs
    have hfirst : Begins opensExpression w := by
      rcases derives_listOf.mp hlist with hu | ⟨m, u, v, -, rfl, hu, -⟩
      · exact expression_begins hu
      · exact (expression_begins hu).append _
    refine takes_check_false ((hfirst.append _).head?_ne rfl) ?_
    exact ih.argumentsFrom 0 w rest (by decide) hlist (by omega)
  · exact takes_check_true (takes_pure trivial)

theorem argumentsFrom_takes (ih : ExpressionTakes n) (count : Nat) (w rest : Word)
    (hcount : count < maxArity)
    (hw : Derives (.listOf (maxArity - 1 - count) (.rule .expression)) w)
    (hn : 32 * w.length + 16 ≤ n + 1) :
    Takes (argumentsFrom (n + 1) count) (w ++ .symbol .rightParen :: rest)
      (.symbol .rightParen :: rest) fun _ => True := by
  rw [argumentsFrom]
  refine takes_checkArity hcount ?_
  rcases derives_listOf.mp hw with hu | ⟨m, u, v, hm, rfl, hu, hv⟩
  · refine (ih.expression w _ hu (closes_symbol (by simp) _) (by omega)).bind fun e _ => ?_
    exact takes_accept_none (by simp) (takes_pure trivial)
  · simp only [List.length_append, List.length_cons] at hn
    rw [List.append_assoc, List.cons_append]
    refine (ih.expression u _ hu (closes_symbol (by simp) _) (by omega)).bind fun e _ => ?_
    refine takes_accept_some fun _ => ?_
    have hm' : m = maxArity - 1 - (count + 1) := by omega
    refine (ih.argumentsFrom (count + 1) v rest (by omega) (hm' ▸ hv) (by omega)).bind ?_
    exact fun rest _ => takes_pure trivial

theorem primary_takes (ih : ExpressionTakes n) (w rest : Word) (hw : Derives (.rule .primary) w)
    (hn : 32 * w.length + 1 ≤ n + 1) :
    Takes (primary (n + 1)) (w ++ rest) rest fun e => w = [.identifier] → e.isTarget = true := by
  rw [primary]
  rcases derives_primary.mp hw with ⟨k, rfl, hk⟩ | rfl | rfl | ⟨u, rfl, hu⟩ | rfl
  · refine takes_acceptIf_some hk fun t => takes_freshId fun id => takes_pure ?_
    rintro ⟨⟩
    simp [literalOf?] at hk
  · refine takes_acceptIf_none (by rintro _ ⟨⟩; rfl) ?_
    refine takes_accept_none (by simp) ?_
    exact takes_accept_some fun t => takes_freshId fun id => takes_pure (by simp)
  · refine takes_acceptIf_none (by rintro _ ⟨⟩; rfl) ?_
    refine takes_accept_none (by simp) (takes_accept_none (by simp) ?_)
    exact takes_accept_some fun t => takes_freshId fun id => takes_pure fun _ => rfl
  · simp only [List.length_cons, List.length_append] at hn
    rw [List.cons_append, List.append_assoc]
    refine takes_acceptIf_none (by rintro _ ⟨⟩; rfl) ?_
    refine takes_accept_none (by simp) (takes_accept_none (by simp) ?_)
    refine takes_accept_none (by simp) (takes_accept_some fun _ => ?_)
    refine (ih.expression u _ hu (closes_symbol (by simp) _) (by omega)).bind fun e _ => ?_
    exact takes_expect fun _ => takes_freshId fun id => takes_pure (by simp)
  · refine takes_acceptIf_none (by rintro _ ⟨⟩; rfl) (takes_accept_some fun t => ?_)
    refine takes_expect fun _ => takes_expect fun method => ?_
    exact takes_freshId fun id => takes_pure (by simp)

theorem expressionTakes (n : Nat) : ExpressionTakes n := by
  induction n with
  | zero => constructor <;> intros <;> omega
  | succ n ih =>
    exact ⟨expression_takes ih, chain_takes ih, chainTarget_takes ih, chainRest_takes ih,
      operand_takes ih, operandTarget_takes ih, unary_takes ih, unaryTarget_takes ih,
      callRest_takes ih, arguments_takes ih, argumentsFrom_takes ih, primary_takes ih⟩

theorem wholeExpression_takes {w : Word} (hw : Derives (.rule .expression) w)
    (hn : 32 * w.length + 15 ≤ n) : Takes (wholeExpression n) w [] fun _ => True := by
  have hread := (expressionTakes n).expression w [] hw closes_nil hn
  rw [List.append_nil] at hread
  exact hread.bind fun e _ => takes_atEnd (takes_pure trivial)

/-! ### Statements without parts of their own kind -/

theorem expressionUnless_takes {s : Symbol} {w : Word}
    (hs : s ∈ [Symbol.comma, .semicolon, .rightParen])
    (hw : Derives (.opt (.rule .expression)) w) (hn : 32 * w.length + 15 ≤ n) :
    Takes (expressionUnless n (.symbol s)) (w ++ .symbol s :: rest) (.symbol s :: rest)
      fun _ => True := by
  rcases derives_opt.mp hw with he | rfl
  · have hopens : opensExpression (.symbol s) = false := by
      simp only [List.mem_cons, List.not_mem_nil, or_false] at hs
      rcases hs with rfl | rfl | rfl <;> rfl
    refine takes_check_false (((expression_begins he).append _).head?_ne hopens) ?_
    refine ((expressionTakes n).expression w _ he (closes_symbol hs rest) hn).bind ?_
    exact fun e _ => takes_pure trivial
  · exact takes_check_true (takes_pure trivial)

theorem varDeclaration_takes {w : Word} (hw : Derives .varTail w) (hn : 32 * w.length + 15 ≤ n) :
    Takes (varDeclaration n) (w ++ rest) rest fun _ => True := by
  obtain ⟨i, rfl, hi⟩ := derives_varTail.mp hw
  simp only [List.length_cons, List.length_append] at hn
  rw [List.cons_append, List.append_assoc]
  refine takes_expect fun name => ?_
  rcases hi with ⟨e, rfl, he⟩ | rfl
  · rw [List.length_cons] at hn
    refine takes_accept_some fun _ => ?_
    refine ((expressionTakes n).expression e _ he (closes_symbol (by simp) rest) (by omega)).bind
      fun init _ => ?_
    exact takes_expect fun _ => takes_pure trivial
  · refine takes_accept_none (by simp) ?_
    exact takes_expect fun _ => takes_pure trivial

theorem expressionStatement_takes {w : Word} (hw : Derives (.rule .exprStmt) w)
    (hn : 32 * w.length + 15 ≤ n) :
    Takes (expressionStatement n) (w ++ rest) rest fun _ => True := by
  obtain ⟨e, rfl, he⟩ := derives_exprStmt.mp hw
  rw [List.length_append] at hn
  rw [List.append_assoc]
  refine ((expressionTakes n).expression e _ he (closes_symbol (by simp) rest) (by omega)).bind
    fun e _ => ?_
  exact takes_expect fun _ => takes_pure trivial

theorem printStatement_takes {e : Word} (he : Derives (.rule .expression) e)
    (hn : 32 * e.length + 15 ≤ n) :
    Takes (printStatement n) (e ++ .symbol .semicolon :: rest) rest fun _ => True := by
  refine ((expressionTakes n).expression e _ he (closes_symbol (by simp) rest) hn).bind
    fun e _ => ?_
  exact takes_expect fun _ => takes_pure trivial

theorem returnStatement_takes {e : Word} (keyword : Token)
    (he : Derives (.opt (.rule .expression)) e) (hn : 32 * e.length + 15 ≤ n) :
    Takes (returnStatement n keyword) (e ++ .symbol .semicolon :: rest) rest fun _ => True := by
  refine (expressionUnless_takes (by simp) he hn).bind fun value _ => ?_
  exact takes_expect fun _ => takes_pure trivial

theorem forInit_takes {w : Word} (hw : Derives .forInit w) (hn : 32 * w.length + 15 ≤ n) :
    Takes (forInit n) (w ++ rest) rest fun _ => True := by
  rcases derives_forInit.mp hw with hvar | hexpr | rfl
  · obtain ⟨u, rfl, hu⟩ := derives_varDecl.mp hvar
    rw [List.length_cons] at hn
    refine takes_accept_none (by simp) (takes_accept_some fun _ => ?_)
    exact (varDeclaration_takes hu (by omega)).bind fun init _ => takes_pure trivial
  · obtain ⟨e, rfl, he⟩ := derives_exprStmt.mp hexpr
    have hfirst := ((expression_begins he).append [.symbol .semicolon]).append rest
    refine takes_accept_none (hfirst.head?_ne rfl) (takes_accept_none (hfirst.head?_ne rfl) ?_)
    exact (expressionStatement_takes hexpr hn).bind fun init _ => takes_pure trivial
  · exact takes_accept_some fun _ => takes_pure trivial

theorem forClauses_takes {w : Word} (hw : Derives .forClauses w) (hn : 32 * w.length + 15 ≤ n) :
    Takes (forClauses n) (w ++ rest) rest fun _ => True := by
  obtain ⟨x, y, z, rfl, hx, hy, hz⟩ := derives_forClauses.mp hw
  simp only [List.length_cons, List.length_append] at hn
  simp only [List.cons_append, List.append_assoc, List.nil_append]
  refine takes_expect fun _ => (forInit_takes hx (by omega)).bind fun init _ => ?_
  refine (expressionUnless_takes (by simp) hy (by omega)).bind fun cond _ => ?_
  refine takes_expect fun _ => ?_
  refine (expressionUnless_takes (by simp) hz (by omega)).bind fun step _ => ?_
  exact takes_expect fun _ => takes_pure trivial

theorem conditionOrTrue_takes (cond : Option Expr) :
    Takes (conditionOrTrue cond) rest rest fun _ => True := by
  cases cond with
  | some e => exact takes_pure trivial
  | none => exact takes_freshId fun id => takes_pure trivial

theorem condition_takes {w : Word} (opening closing : Expected) (hw : Derives .condition w)
    (hn : 32 * w.length + 15 ≤ n) :
    Takes (condition n opening closing) (w ++ rest) rest fun _ => True := by
  obtain ⟨e, rfl, he⟩ := derives_condition.mp hw
  simp only [List.length_cons, List.length_append] at hn
  rw [List.cons_append, List.append_assoc]
  refine takes_expect fun _ => ?_
  refine ((expressionTakes n).expression e _ he (closes_symbol (by simp) rest) (by omega)).bind
    fun cond _ => ?_
  exact takes_expect fun _ => takes_pure trivial

theorem superclass_takes {w : Word} (hw : w = [.symbol .less, .identifier] ∨ w = []) :
    Takes superclass (w ++ .symbol .leftBrace :: rest) (.symbol .leftBrace :: rest)
      fun _ => True := by
  rcases hw with rfl | rfl
  · refine takes_accept_some fun _ => takes_expect fun name => ?_
    exact takes_freshId fun id => takes_pure trivial
  · exact takes_accept_none (by simp) (takes_pure trivial)

theorem parametersFrom_takes (n count : Nat) (w : Word) (hcount : count < maxArity)
    (hw : Derives (.listOf (maxArity - 1 - count) .ident) w) (hn : 32 * w.length + 1 ≤ n) :
    Takes (parametersFrom n count) (w ++ .symbol .rightParen :: rest) (.symbol .rightParen :: rest)
      fun _ => True := by
  induction n generalizing count w with
  | zero => omega
  | succ n ih =>
    rw [parametersFrom]
    refine takes_checkArity hcount ?_
    rcases derives_listOf.mp hw with hname | ⟨m, u, v, hm, rfl, hname, hv⟩
    · obtain rfl := derives_ident.mp hname
      exact takes_expect fun name => takes_accept_none (by simp) (takes_pure trivial)
    · obtain rfl := derives_ident.mp hname
      simp only [List.length_append, List.length_cons] at hn
      rw [List.append_assoc, List.cons_append]
      refine takes_expect fun name => takes_accept_some fun _ => ?_
      have hm' : m = maxArity - 1 - (count + 1) := by omega
      refine (ih (count + 1) v (by omega) (hm' ▸ hv) (by omega)).bind ?_
      exact fun rest _ => takes_pure trivial

theorem parameters_takes {w : Word} (hw : Derives (.opt (.rule .parameters)) w)
    (hn : 32 * w.length + 1 ≤ n) :
    Takes (parameters n) (w ++ .symbol .rightParen :: rest) (.symbol .rightParen :: rest)
      fun _ => True := by
  rcases derives_opt.mp hw with hparams | rfl
  · have hlist := derives_rule.mp hparams
    have hfirst : Begins opensPrimary w := by
      rcases derives_listOf.mp hlist with hname | ⟨m, u, v, -, rfl, hname, -⟩
      · exact ⟨_, _, derives_ident.mp hname, rfl⟩
      · obtain rfl := derives_ident.mp hname
        exact ⟨_, _, rfl, rfl⟩
    refine takes_check_false ((hfirst.append _).head?_ne rfl) ?_
    exact parametersFrom_takes n 0 w (by decide) hlist hn
  · exact takes_check_true (takes_pure trivial)

theorem functionHead_takes {w : Word} (sort : FunctionSort) (hw : Derives .functionHead w)
    (hn : 32 * w.length ≤ n) : Takes (functionHead n sort) (w ++ rest) rest fun _ => True := by
  obtain ⟨p, rfl, hp⟩ := derives_functionHead.mp hw
  simp only [List.length_cons, List.length_append] at hn
  simp only [List.cons_append, List.append_assoc, List.nil_append]
  refine takes_expect fun name => takes_expect fun _ => ?_
  refine (parameters_takes hp (by omega)).bind fun params _ => ?_
  exact takes_expect fun _ => takes_expect fun _ => takes_pure trivial

/-! ### Declarations and statements -/

/-- What follows ends a sequence of declarations. -/
def Ends (inBlock : Bool) (rest : Word) : Prop :=
  rest = [] ∨ inBlock = true ∧ ∃ after, rest = .symbol .rightBrace :: after

theorem Ends.head?_ne_else {inBlock : Bool} (h : Ends inBlock rest) :
    rest.head? ≠ some (.keyword .else_) := by
  rcases h with rfl | ⟨-, after, rfl⟩ <;> simp

/-- What is known of the readers of declarations and statements at some fuel. -/
structure StatementTakes (n : Nat) : Prop where
  declaration : ∀ w rest, Derives (.rule .declaration) w →
    rest.head? ≠ some (.keyword .else_) → 32 * w.length + 17 ≤ n →
    Takes (declaration n) (w ++ rest) rest fun _ => True
  classDeclaration : ∀ w rest, Derives .classTail w → 32 * w.length + 1 ≤ n →
    Takes (classDeclaration n) (w ++ rest) rest fun _ => True
  methods : ∀ w rest, Derives (.many (.rule .function)) w → 32 * w.length + 2 ≤ n →
    Takes (methods n) (w ++ .symbol .rightBrace :: rest) (.symbol .rightBrace :: rest)
      fun _ => True
  function : ∀ sort w rest, Derives (.rule .function) w → 32 * w.length + 1 ≤ n →
    Takes (function n sort) (w ++ rest) rest fun _ => True
  statement : ∀ b w rest, Nested b w → (b = true → rest.head? ≠ some (.keyword .else_)) →
    32 * w.length + 16 ≤ n → Takes (statement n) (w ++ rest) rest fun _ => True
  block : ∀ w rest, Derives .blockTail w → 32 * w.length + 19 ≤ n →
    Takes (block n) (w ++ rest) rest fun _ => True
  declarations : ∀ inBlock w rest, Derives (.many (.rule .declaration)) w → Ends inBlock rest →
    32 * w.length + 18 ≤ n → Takes (declarations n inBlock) (w ++ rest) rest fun _ => True

theorem declaration_takes (ih : StatementTakes n) (w rest : Word)
    (hw : Derives (.rule .declaration) w) (hrest : rest.head? ≠ some (.keyword .else_))
    (hn : 32 * w.length + 17 ≤ n + 1) :
    Takes (declaration (n + 1)) (w ++ rest) rest fun _ => True := by
  rw [declaration]
  refine (takes_recover (P := fun _ => True) ?_).mono fun _ _ => trivial
  rcases derives_declaration.mp hw with h | h | h | h
  · obtain ⟨u, rfl, hu⟩ := derives_classDecl.mp h
    rw [List.length_cons] at hn
    exact takes_accept_some fun _ => ih.classDeclaration u rest hu (by omega)
  · obtain ⟨u, rfl, hu⟩ := derives_funDecl.mp h
    rw [List.length_cons] at hn
    refine takes_accept_none (by simp) (takes_accept_some fun _ => ?_)
    exact (ih.function _ u rest hu (by omega)).bind fun f _ => takes_pure trivial
  · obtain ⟨u, rfl, hu⟩ := derives_varDecl.mp h
    rw [List.length_cons] at hn
    refine takes_accept_none (by simp) (takes_accept_none (by simp) ?_)
    exact takes_accept_some fun _ => varDeclaration_takes hu (by omega)
  · have hfirst := (statement_begins h).append rest
    refine takes_accept_none (hfirst.head?_ne rfl) (takes_accept_none (hfirst.head?_ne rfl) ?_)
    refine takes_accept_none (hfirst.head?_ne rfl) ?_
    obtain ⟨b, hb⟩ := statement_nested h
    exact ih.statement b w rest hb (fun _ => hrest) (by omega)

theorem classDeclaration_takes (ih : StatementTakes n) (w rest : Word)
    (hw : Derives .classTail w) (hn : 32 * w.length + 1 ≤ n + 1) :
    Takes (classDeclaration (n + 1)) (w ++ rest) rest fun _ => True := by
  rw [classDeclaration]
  obtain ⟨s, m, rfl, hs, hm⟩ := derives_classTail.mp hw
  simp only [List.length_cons, List.length_append] at hn
  simp only [List.cons_append, List.append_assoc, List.nil_append]
  refine takes_expect fun name => (superclass_takes hs).bind fun super _ => ?_
  refine takes_expect fun _ => (ih.methods m rest hm (by omega)).bind fun decls _ => ?_
  exact takes_expect fun _ => takes_pure trivial

theorem methods_takes (ih : StatementTakes n) (w rest : Word)
    (hw : Derives (.many (.rule .function)) w) (hn : 32 * w.length + 2 ≤ n + 1) :
    Takes (methods (n + 1)) (w ++ .symbol .rightBrace :: rest) (.symbol .rightBrace :: rest)
      fun _ => True := by
  rw [methods]
  rcases derives_many.mp hw with rfl | ⟨u, v, rfl, hu, hv⟩
  · exact takes_atClosing_brace (takes_pure trivial)
  · have hfirst := (function_begins hu).append (v ++ .symbol .rightBrace :: rest)
    have hlength := List.length_pos_iff.mpr (function_begins hu).ne_nil
    rw [List.length_append] at hn
    rw [List.append_assoc]
    refine takes_atClosing_false hfirst.ne_nil (hfirst.head?_ne rfl) ?_
    refine (ih.function _ u _ hu (by omega)).bind fun first _ => ?_
    exact (ih.methods v rest hv (by omega)).bind fun others _ => takes_pure trivial

theorem function_takes (ih : StatementTakes n) (sort : FunctionSort) (w rest : Word)
    (hw : Derives (.rule .function) w) (hn : 32 * w.length + 1 ≤ n + 1) :
    Takes (function (n + 1) sort) (w ++ rest) rest fun _ => True := by
  rw [function]
  obtain ⟨u, v, rfl, hu, hv⟩ := derives_function.mp hw
  have hlength : 0 < u.length := by
    obtain ⟨p, rfl, -⟩ := derives_functionHead.mp hu
    simp
  rw [List.length_append] at hn
  rw [List.append_assoc]
  refine (functionHead_takes sort hu (by omega)).bind fun ⟨name, params⟩ _ => ?_
  exact (ih.block v rest hv (by omega)).bind fun body _ => takes_pure trivial

theorem statement_takes (ih : StatementTakes n) (b : Bool) (w rest : Word) (hw : Nested b w)
    (hrest : b = true → rest.head? ≠ some (.keyword .else_)) (hn : 32 * w.length + 16 ≤ n + 1) :
    Takes (statement (n + 1)) (w ++ rest) rest fun _ => True := by
  rw [statement]
  cases hw with
  | plain h =>
    rcases h with h | h | h | h
    · have hfirst : Begins opensExpression (w ++ rest) := by
        obtain ⟨e, rfl, he⟩ := derives_exprStmt.mp h
        exact ((expression_begins he).append _).append rest
      refine takes_accept_none (hfirst.head?_ne rfl) (takes_accept_none (hfirst.head?_ne rfl) ?_)
      refine takes_accept_none (hfirst.head?_ne rfl) (takes_accept_none (hfirst.head?_ne rfl) ?_)
      refine takes_accept_none (hfirst.head?_ne rfl) (takes_accept_none (hfirst.head?_ne rfl) ?_)
      exact expressionStatement_takes h (by omega)
    · obtain ⟨e, rfl, he⟩ := derives_printStmt.mp h
      simp only [List.length_cons, List.length_append] at hn
      rw [List.cons_append, List.append_assoc]
      refine takes_accept_none (by simp) (takes_accept_none (by simp) ?_)
      refine takes_accept_none (by simp) (takes_accept_none (by simp) ?_)
      refine takes_accept_none (by simp) (takes_accept_some fun _ => ?_)
      exact printStatement_takes he (by omega)
    · obtain ⟨e, rfl, he⟩ := derives_returnStmt.mp h
      simp only [List.length_cons, List.length_append] at hn
      rw [List.cons_append, List.append_assoc]
      refine takes_accept_none (by simp) (takes_accept_none (by simp) ?_)
      refine takes_accept_none (by simp) (takes_accept_some fun keyword => ?_)
      exact returnStatement_takes keyword he (by omega)
    · obtain ⟨u, rfl, hu⟩ := derives_block.mp h
      rw [List.length_cons] at hn
      refine takes_accept_none (by simp) (takes_accept_none (by simp) ?_)
      refine takes_accept_none (by simp) (takes_accept_none (by simp) ?_)
      refine takes_accept_some fun _ => ?_
      exact (ih.block u rest hu (by omega)).bind fun body _ => takes_pure trivial
  | @forLoop _ u v hu hv =>
    simp only [List.length_cons, List.length_append] at hn
    rw [List.cons_append, List.append_assoc]
    refine takes_accept_some fun _ => ?_
    refine (forClauses_takes hu (by omega)).bind fun ⟨init, cond, step⟩ _ => ?_
    refine (ih.statement b v rest hv hrest (by omega)).bind fun body _ => ?_
    exact (conditionOrTrue_takes cond).bind fun cond' _ => takes_pure trivial
  | @whileLoop _ u v hu hv =>
    simp only [List.length_cons, List.length_append] at hn
    rw [List.cons_append, List.append_assoc]
    refine takes_accept_none (by simp) (takes_accept_none (by simp) ?_)
    refine takes_accept_some fun _ => (condition_takes _ _ hu (by omega)).bind fun cond _ => ?_
    exact (ih.statement b v rest hv hrest (by omega)).bind fun body _ => takes_pure trivial
  | @ifThen c u v hu hv =>
    simp only [List.length_cons, List.length_append] at hn
    rw [List.cons_append, List.append_assoc]
    refine takes_accept_none (by simp) (takes_accept_some fun _ => ?_)
    refine (condition_takes _ _ hu (by omega)).bind fun cond _ => ?_
    -- Neither this `if` nor one inside its branch finds an `else`.
    refine (ih.statement c v rest hv (fun _ => hrest rfl) (by omega)).bind fun thenBranch _ => ?_
    exact takes_accept_none (hrest rfl) (takes_pure trivial)
  | @ifElse _ u v x hu hv hx =>
    simp only [List.length_cons, List.length_append] at hn
    simp only [List.cons_append, List.append_assoc]
    refine takes_accept_none (by simp) (takes_accept_some fun _ => ?_)
    refine (condition_takes _ _ hu (by omega)).bind fun cond _ => ?_
    -- The first branch is closed, so it leaves the `else` to this `if`.
    refine (ih.statement false v _ hv (by simp) (by omega)).bind fun thenBranch _ => ?_
    refine takes_accept_some fun _ => ?_
    exact (ih.statement b x rest hx hrest (by omega)).bind fun elseBranch _ => takes_pure trivial

theorem block_takes (ih : StatementTakes n) (w rest : Word) (hw : Derives .blockTail w)
    (hn : 32 * w.length + 19 ≤ n + 1) :
    Takes (block (n + 1)) (w ++ rest) rest fun _ => True := by
  rw [block]
  obtain ⟨ds, rfl, hds⟩ := derives_blockTail.mp hw
  rw [List.length_append] at hn
  rw [List.append_assoc]
  refine (ih.declarations true ds _ hds (Or.inr ⟨rfl, rest, rfl⟩) (by omega)).bind fun body _ => ?_
  exact takes_expect fun _ => takes_pure trivial

theorem declarations_takes (ih : StatementTakes n) (inBlock : Bool) (w rest : Word)
    (hw : Derives (.many (.rule .declaration)) w) (hrest : Ends inBlock rest)
    (hn : 32 * w.length + 18 ≤ n + 1) :
    Takes (declarations (n + 1) inBlock) (w ++ rest) rest fun _ => True := by
  rw [declarations]
  rcases derives_many.mp hw with rfl | ⟨u, v, rfl, hu, hv⟩
  · rcases hrest with rfl | ⟨rfl, after, rfl⟩
    · exact takes_atClosing_nil (takes_pure trivial)
    · exact takes_atClosing_brace (takes_pure trivial)
  · have hfirst := (declaration_begins hu).append (v ++ rest)
    have hlength := List.length_pos_iff.mpr (declaration_begins hu).ne_nil
    have hnext : (v ++ rest).head? ≠ some (.keyword .else_) := by
      rcases derives_many.mp hv with rfl | ⟨x, y, rfl, hx, -⟩
      · exact hrest.head?_ne_else
      · exact (((declaration_begins hx).append y).append rest).head?_ne rfl
    rw [List.length_append] at hn
    rw [List.append_assoc]
    refine takes_atClosing_false hfirst.ne_nil (hfirst.head?_ne rfl) ?_
    refine (ih.declaration u _ hu hnext (by omega)).bind fun first _ => ?_
    exact (ih.declarations inBlock v rest hv hrest (by omega)).bind fun others _ =>
      takes_pure trivial

theorem statementTakes (n : Nat) : StatementTakes n := by
  induction n with
  | zero => constructor <;> intros <;> omega
  | succ n ih =>
    exact ⟨declaration_takes ih, classDeclaration_takes ih, methods_takes ih, function_takes ih,
      statement_takes ih, block_takes ih, declarations_takes ih⟩

end Parse

end Lox
