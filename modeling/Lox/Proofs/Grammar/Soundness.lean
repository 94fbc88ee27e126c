import Lox.Proofs.Grammar.Recognition

/-!
# Everything accepted is in the language

The readers without a complaint have read a word of the rule they are named for. This goes by
induction on the fuel, for all the readers of expressions at once, and then for all the readers of
declarations and statements.

A chain of operators does not know yet whether an equals sign comes next. So the statements about
the readers below an assignment say more than that a word can be derived: a variable or a property
access has been read from a word that may stand before an equals sign.
-/

namespace Lox

/-! ### Expressions -/

namespace Expr

/-- If the expression can be assigned to, the word may stand before an equals sign. -/
def TargetFor (e : Expr) (w : Word) : Prop := e.isTarget = true → Derives .target w

theorem targetFor_of_not_isTarget {e : Expr} (h : e.isTarget = false) (w : Word) :
    e.TargetFor w := fun htrue => absurd (h.symm.trans htrue) (by simp)

theorem isTarget_join (l : Level) (id : NodeId) (left : Expr) (op : Token) (right : Expr) :
    (l.join id left op right).isTarget = false := by
  cases l <;> rfl

end Expr

namespace Parse

variable {c : Cursor} {limit n : Nat}

theorem superAccess_recognizes (keyword : Token) (hlimit : c.ahead.length ≤ limit) :
    Recognizes (superAccess keyword) c limit fun e w =>
      w = [.symbol .dot, .identifier] ∧ e.isTarget = false := by
  refine recognizes_expect fun _ d₁ hd₁ => recognizes_expect fun _ d₂ hd₂ => ?_
  exact recognizes_freshId fun _ d₃ hd₃ => recognizes_pure (by omega) ⟨rfl, rfl⟩

theorem property_recognizes (object : Expr) (hlimit : c.ahead.length ≤ limit) :
    Recognizes (property object) c limit fun _ w => w = [.identifier] := by
  refine recognizes_expect fun _ d₁ hd₁ => ?_
  exact recognizes_freshId fun _ d₂ hd₂ => recognizes_pure (by omega) rfl

theorem assignment_recognizes {target value : Expr} {equals : Token}
    (hlimit : c.ahead.length < limit) :
    Recognizes (assignment target equals value) c limit fun _ w =>
      w = [] ∧ target.isTarget = true := by
  unfold assignment
  split
  · exact recognizes_freshId fun _ d hd => recognizes_pure (by omega) ⟨rfl, rfl⟩
  · exact recognizes_freshId fun _ d hd => recognizes_pure (by omega) ⟨rfl, rfl⟩
  · exact recognizes_complain fun d hd => recognizes_pure (by omega) trivial

/-- What is known of the readers of expressions at some fuel. Beyond the fuel for the tokens ahead,
a reader needs some for the calls on the way to the next token. -/
structure ExpressionRecognizes (n : Nat) : Prop where
  expression : ∀ c, 32 * c.ahead.length + 15 ≤ n →
    Recognizes (expression n) c c.ahead.length fun _ w => Derives (.rule .expression) w
  chain : ∀ l c, 32 * c.ahead.length + (2 * l.depth + 4) ≤ n →
    Recognizes (chain n l) c c.ahead.length fun e w => Derives (.rule l.rule) w ∧ e.TargetFor w
  chainRest : ∀ l left c, 32 * c.ahead.length + 1 ≤ n →
    Recognizes (chainRest n l left) c (c.ahead.length + 1) fun e w =>
      Derives (.many l.step) w ∧ (w = [] ∧ e = left ∨ e.isTarget = false)
  operand : ∀ l c, 32 * c.ahead.length + (2 * l.depth + 3) ≤ n →
    Recognizes (operand n l) c c.ahead.length fun e w =>
      Derives (.rule l.operandRule) w ∧ e.TargetFor w
  unary : ∀ c, 32 * c.ahead.length + 2 ≤ n →
    Recognizes (unary n) c c.ahead.length fun e w => Derives (.rule .unary) w ∧ e.TargetFor w
  callRest : ∀ e c, 32 * c.ahead.length + 1 ≤ n →
    Recognizes (callRest n e) c (c.ahead.length + 1) fun e' v => ∀ u,
      Derives (.rule .call) u → e.TargetFor u →
      Derives (.rule .call) (u ++ v) ∧ e'.TargetFor (u ++ v)
  arguments : ∀ c, 32 * c.ahead.length + 17 ≤ n →
    Recognizes (arguments n) c (c.ahead.length + 1) fun _ w => Derives (.opt (.rule .arguments)) w
  argumentsFrom : ∀ count c, 32 * c.ahead.length + 16 ≤ n →
    Recognizes (argumentsFrom n count) c c.ahead.length fun _ w =>
      count < maxArity ∧ Derives (.listOf (maxArity - 1 - count) (.rule .expression)) w
  primary : ∀ c, 32 * c.ahead.length + 1 ≤ n →
    Recognizes (primary n) c c.ahead.length fun e w => Derives (.rule .primary) w ∧ e.TargetFor w

theorem expression_recognizes (ih : ExpressionRecognizes n) (c : Cursor)
    (hn : 32 * c.ahead.length + 15 ≤ n + 1) :
    Recognizes (expression (n + 1)) c c.ahead.length fun _ w => Derives (.rule .expression) w := by
  rw [expression]
  refine (ih.chain .or c (by simp only [Level.depth]; omega)).bind fun target d₁ hd₁ => ?_
  refine recognizes_accept ?_ fun equals d₂ hd₂ => ?_
  · refine recognizes_pure hd₁ fun u hu => ?_
    rw [List.append_nil]
    exact derives_expression.mpr (Or.inr hu.1)
  · refine (ih.expression d₂ (by omega)).bind fun value d₃ hd₃ => ?_
    refine (assignment_recognizes (by omega)).mono le_rfl fun _ w hw v hv u hu => ?_
    -- Without a complaint the chain before the equals sign has turned out to be a target.
    obtain ⟨rfl, htarget⟩ := hw
    rw [List.append_nil]
    exact derives_expression.mpr (Or.inl ⟨u, v, rfl, hu.2 htarget, hv⟩)

theorem chain_recognizes (ih : ExpressionRecognizes n) (l : Level) (c : Cursor)
    (hn : 32 * c.ahead.length + (2 * l.depth + 4) ≤ n + 1) :
    Recognizes (chain (n + 1) l) c c.ahead.length fun e w =>
      Derives (.rule l.rule) w ∧ e.TargetFor w := by
  rw [chain]
  refine (ih.operand l c (by omega)).bind fun left d hd => ?_
  refine (ih.chainRest l left d (by omega)).mono (by omega) fun e w hw u hu => ?_
  refine ⟨derives_chain.mpr ⟨u, w, rfl, hu.1, hw.1⟩, ?_⟩
  rcases hw.2 with ⟨rfl, rfl⟩ | hjoin
  · rw [List.append_nil]
    exact hu.2
  · exact Expr.targetFor_of_not_isTarget hjoin _

theorem chainRest_recognizes (ih : ExpressionRecognizes n) (l : Level) (left : Expr) (c : Cursor)
    (hn : 32 * c.ahead.length + 1 ≤ n + 1) :
    Recognizes (chainRest (n + 1) l left) c (c.ahead.length + 1) fun e w =>
      Derives (.many l.step) w ∧ (w = [] ∧ e = left ∨ e.isTarget = false) := by
  rw [chainRest]
  refine recognizes_acceptIf ?_ fun op d₁ hop hd₁ => ?_
  · exact recognizes_pure (Nat.lt_succ_self _) ⟨.done, Or.inl ⟨rfl, rfl⟩⟩
  · refine (ih.operand l d₁ (by cases l <;> simp only [Level.depth] <;> omega)).bind
      fun right d₂ hd₂ => ?_
    refine recognizes_freshId fun id d₃ hd₃ => ?_
    refine (ih.chainRest l _ d₃ (by omega)).mono (by omega) fun e w hw u hu => ?_
    refine ⟨.more (derives_step.mpr ⟨_, u, rfl, hop, hu.1⟩) hw.1, Or.inr ?_⟩
    rcases hw.2 with ⟨-, rfl⟩ | hjoin
    · exact Expr.isTarget_join l id left op right
    · exact hjoin

theorem operand_recognizes (ih : ExpressionRecognizes n) (l : Level) (c : Cursor)
    (hn : 32 * c.ahead.length + (2 * l.depth + 3) ≤ n + 1) :
    Recognizes (operand (n + 1) l) c c.ahead.length fun e w =>
      Derives (.rule l.operandRule) w ∧ e.TargetFor w := by
  rw [operand]
  cases hl : l.tighter? with
  | some l' =>
    obtain ⟨hrule, hdepth⟩ := Level.of_tighter? hl
    rw [hrule]
    exact ih.chain l' c (by omega)
  | none =>
    obtain rfl := Level.eq_factor hl
    exact ih.unary c (by omega)

theorem unary_recognizes (ih : ExpressionRecognizes n) (c : Cursor)
    (hn : 32 * c.ahead.length + 2 ≤ n + 1) :
    Recognizes (unary (n + 1)) c c.ahead.length fun e w =>
      Derives (.rule .unary) w ∧ e.TargetFor w := by
  rw [unary]
  refine recognizes_acceptIf ?_ fun op d₁ hop hd₁ => ?_
  · refine (ih.primary c (by omega)).bind fun e d₁ hd₁ => ?_
    refine (ih.callRest e d₁ (by omega)).mono (by omega) fun e' v hv u hu => ?_
    have hprimary : Derives (.rule .call) u :=
      derives_call.mpr ⟨u, [], (List.append_nil u).symm, hu.1, .done⟩
    obtain ⟨hcall, htarget⟩ := hv u hprimary hu.2
    exact ⟨derives_unary.mpr (Or.inr hcall), htarget⟩
  · refine (ih.unary d₁ (by omega)).bind fun right d₂ hd₂ => ?_
    refine recognizes_freshId fun id d₃ hd₃ => recognizes_pure (by omega) fun u hu => ?_
    rw [List.append_nil]
    exact ⟨derives_unary.mpr (Or.inl ⟨_, u, rfl, hop, hu.1⟩), Expr.targetFor_of_not_isTarget rfl _⟩

theorem callRest_recognizes (ih : ExpressionRecognizes n) (e : Expr) (c : Cursor)
    (hn : 32 * c.ahead.length + 1 ≤ n + 1) :
    Recognizes (callRest (n + 1) e) c (c.ahead.length + 1) fun e' v => ∀ u,
      Derives (.rule .call) u → e.TargetFor u →
      Derives (.rule .call) (u ++ v) ∧ e'.TargetFor (u ++ v) := by
  rw [callRest]
  refine recognizes_accept (recognizes_accept ?_ fun _ d₁ hd₁ => ?_) fun _ d₁ hd₁ => ?_
  · refine recognizes_pure (Nat.lt_succ_self _) fun u hu htarget => ?_
    rw [List.append_nil]
    exact ⟨hu, htarget⟩
  · refine (property_recognizes e le_rfl).bind fun object d₂ hd₂ => ?_
    refine (ih.callRest object d₂ (by omega)).mono (by omega) fun e' v hv name hname u hu _ => ?_
    obtain rfl := hname
    have hsuffix : Derives .suffix [.symbol .dot, .identifier] := derives_suffix.mpr (Or.inr rfl)
    have hget : Derives .target (u ++ [.symbol .dot, .identifier]) :=
      derives_target.mpr (Or.inr ⟨u, rfl, hu⟩)
    have hv := hv _ (derives_call_snoc hu hsuffix) fun _ => hget
    rwa [List.append_assoc] at hv
  · refine (ih.arguments d₁ (by omega)).bind fun args d₂ hd₂ => ?_
    refine recognizes_expect fun _ d₃ hd₃ => recognizes_freshId fun id d₄ hd₄ => ?_
    refine (ih.callRest _ d₄ (by omega)).mono (by omega) fun e' v hv w hw u hu _ => ?_
    have hsuffix : Derives .suffix (.symbol .leftParen :: (w ++ [.symbol .rightParen])) :=
      derives_suffix.mpr (Or.inl ⟨w, rfl, hw⟩)
    have hv := hv _ (derives_call_snoc hu hsuffix) (Expr.targetFor_of_not_isTarget rfl _)
    simpa using hv

theorem arguments_recognizes (ih : ExpressionRecognizes n) (c : Cursor)
    (hn : 32 * c.ahead.length + 17 ≤ n + 1) :
    Recognizes (arguments (n + 1)) c (c.ahead.length + 1) fun _ w =>
      Derives (.opt (.rule .arguments)) w := by
  rw [arguments]
  refine recognizes_check fun closing => ?_
  cases closing with
  | true => exact recognizes_pure (Nat.lt_succ_self _) .absent
  | false =>
    exact (ih.argumentsFrom 0 c (by omega)).mono (by omega) fun _ w hw => .present (.rule hw.2)

theorem argumentsFrom_recognizes (ih : ExpressionRecognizes n) (count : Nat) (c : Cursor)
    (hn : 32 * c.ahead.length + 16 ≤ n + 1) :
    Recognizes (argumentsFrom (n + 1) count) c c.ahead.length fun _ w =>
      count < maxArity ∧ Derives (.listOf (maxArity - 1 - count) (.rule .expression)) w := by
  rw [argumentsFrom]
  refine recognizes_checkArity fun d₁ hd₁ => ?_
  refine (ih.expression d₁ (by omega)).bind fun e d₂ hd₂ => ?_
  refine recognizes_accept ?_ fun _ d₃ hd₃ => ?_
  · refine recognizes_pure (by omega) fun u hu hcount => ⟨hcount, ?_⟩
    rw [List.append_nil]
    exact derives_listOf.mpr (Or.inl hu)
  · refine (ih.argumentsFrom (count + 1) d₃ (by omega)).bind fun rest d₄ hd₄ => ?_
    refine recognizes_pure (by omega) fun v hv u hu hcount => ⟨hcount, ?_⟩
    have hroom := hv.1
    rw [List.append_nil]
    exact derives_listOf.mpr (Or.inr ⟨_, u, v, by omega, rfl, hu, hv.2⟩)

theorem primary_recognizes (ih : ExpressionRecognizes n) (c : Cursor)
    (hn : 32 * c.ahead.length + 1 ≤ n + 1) :
    Recognizes (primary (n + 1)) c c.ahead.length fun e w =>
      Derives (.rule .primary) w ∧ e.TargetFor w := by
  rw [primary]
  refine recognizes_acceptIf ?_ fun t d₁ ht hd₁ => ?_
  swap
  · refine recognizes_freshId fun id d₂ hd₂ => recognizes_pure (by omega) ?_
    exact ⟨derives_primary.mpr (Or.inl ⟨_, rfl, ht⟩), Expr.targetFor_of_not_isTarget rfl _⟩
  refine recognizes_accept ?_ fun keyword d₁ hd₁ => ?_
  swap
  · refine (superAccess_recognizes keyword hd₁.le).mono le_rfl fun e w hw => ?_
    obtain ⟨rfl, he⟩ := hw
    exact ⟨derives_primary.mpr (by simp), Expr.targetFor_of_not_isTarget he _⟩
  refine recognizes_accept ?_ fun keyword d₁ hd₁ => ?_
  swap
  · refine recognizes_freshId fun id d₂ hd₂ => recognizes_pure (by omega) ?_
    exact ⟨derives_primary.mpr (by simp), Expr.targetFor_of_not_isTarget rfl _⟩
  refine recognizes_accept ?_ fun name d₁ hd₁ => ?_
  swap
  · refine recognizes_freshId fun id d₂ hd₂ => recognizes_pure (by omega) ?_
    exact ⟨derives_primary.mpr (by simp), fun _ => derives_target.mpr (by simp)⟩
  refine recognizes_accept (recognizes_failWith _) fun _ d₁ hd₁ => ?_
  refine (ih.expression d₁ (by omega)).bind fun inner d₂ hd₂ => ?_
  refine recognizes_expect fun _ d₃ hd₃ => recognizes_freshId fun id d₄ hd₄ => ?_
  refine recognizes_pure (by omega) fun u hu => ?_
  exact ⟨derives_primary.mpr (by simpa using hu), Expr.targetFor_of_not_isTarget rfl _⟩

theorem expressionRecognizes (n : Nat) : ExpressionRecognizes n := by
  induction n with
  | zero => constructor <;> intros <;> omega
  | succ n ih =>
    exact ⟨expression_recognizes ih, chain_recognizes ih, chainRest_recognizes ih,
      operand_recognizes ih, unary_recognizes ih, callRest_recognizes ih,
      arguments_recognizes ih, argumentsFrom_recognizes ih, primary_recognizes ih⟩

theorem wholeExpression_recognizes (hn : 32 * c.ahead.length + 15 ≤ n) :
    Recognizes (wholeExpression n) c 1 fun _ w => Derives (.rule .expression) w := by
  refine ((expressionRecognizes n).expression c hn).bind fun e d hd => ?_
  refine recognizes_atEnd (fun hend => recognizes_pure (by simp [hend]) fun u hu => ?_)
    (recognizes_failWith _)
  rw [List.append_nil]
  exact hu

/-! ### Statements without parts of their own kind -/

theorem expressionUnless_recognizes (k : TokenKind) (hn : 32 * c.ahead.length + 15 ≤ n) :
    Recognizes (expressionUnless n k) c (c.ahead.length + 1) fun _ w =>
      Derives (.opt (.rule .expression)) w := by
  refine recognizes_check fun absent => ?_
  cases absent with
  | true => exact recognizes_pure (Nat.lt_succ_self _) .absent
  | false =>
    refine ((expressionRecognizes n).expression c hn).bind fun e d hd => ?_
    refine recognizes_pure (by omega) fun u hu => ?_
    rw [List.append_nil]
    exact .present hu

theorem varDeclaration_recognizes (hn : 32 * c.ahead.length + 15 ≤ n) :
    Recognizes (varDeclaration n) c c.ahead.length fun _ w => Derives .varTail w := by
  refine recognizes_expect fun name d₁ hd₁ => ?_
  refine recognizes_accept ?_ fun _ d₂ hd₂ => ?_
  · refine recognizes_expect fun _ d₂ hd₂ => recognizes_pure (by omega) ?_
    exact derives_varTail.mpr ⟨[], rfl, Or.inr rfl⟩
  · refine ((expressionRecognizes n).expression d₂ (by omega)).bind fun init d₃ hd₃ => ?_
    refine recognizes_expect fun _ d₄ hd₄ => recognizes_pure (by omega) fun u hu => ?_
    exact derives_varTail.mpr ⟨_, rfl, Or.inl ⟨u, rfl, hu⟩⟩

theorem expressionStatement_recognizes (hn : 32 * c.ahead.length + 15 ≤ n) :
    Recognizes (expressionStatement n) c c.ahead.length fun _ w =>
      Derives (.rule .exprStmt) w := by
  refine ((expressionRecognizes n).expression c hn).bind fun e d₁ hd₁ => ?_
  refine recognizes_expect fun _ d₂ hd₂ => recognizes_pure (by omega) fun u hu => ?_
  exact derives_exprStmt.mpr ⟨u, rfl, hu⟩

theorem printStatement_recognizes (hn : 32 * c.ahead.length + 15 ≤ n) :
    Recognizes (printStatement n) c c.ahead.length fun _ w =>
      Derives (.rule .printStmt) (.keyword .print :: w) := by
  refine ((expressionRecognizes n).expression c hn).bind fun e d₁ hd₁ => ?_
  refine recognizes_expect fun _ d₂ hd₂ => recognizes_pure (by omega) fun u hu => ?_
  exact derives_printStmt.mpr ⟨u, rfl, hu⟩

theorem returnStatement_recognizes (keyword : Token) (hn : 32 * c.ahead.length + 15 ≤ n) :
    Recognizes (returnStatement n keyword) c c.ahead.length fun _ w =>
      Derives (.rule .returnStmt) (.keyword .return_ :: w) := by
  refine (expressionUnless_recognizes _ hn).bind fun value d₁ hd₁ => ?_
  refine recognizes_expect fun _ d₂ hd₂ => recognizes_pure (by omega) fun u hu => ?_
  exact derives_returnStmt.mpr ⟨u, rfl, hu⟩

theorem forInit_recognizes (hn : 32 * c.ahead.length + 15 ≤ n) :
    Recognizes (forInit n) c c.ahead.length fun _ w => Derives .forInit w := by
  refine recognizes_accept ?_ fun _ d₁ hd₁ => ?_
  swap
  · exact recognizes_pure (by omega) (derives_forInit.mpr (Or.inr (Or.inr rfl)))
  refine recognizes_accept ?_ fun _ d₁ hd₁ => ?_
  · refine (expressionStatement_recognizes hn).bind fun init d₁ hd₁ => ?_
    refine recognizes_pure (by omega) fun u hu => ?_
    rw [List.append_nil]
    exact derives_forInit.mpr (Or.inr (Or.inl hu))
  · refine (varDeclaration_recognizes (by omega)).bind fun init d₂ hd₂ => ?_
    refine recognizes_pure (by omega) fun u hu => ?_
    rw [List.append_nil]
    exact derives_forInit.mpr (Or.inl (derives_varDecl.mpr ⟨u, rfl, hu⟩))

theorem forClauses_recognizes (hn : 32 * c.ahead.length + 15 ≤ n) :
    Recognizes (forClauses n) c c.ahead.length fun _ w => Derives .forClauses w := by
  refine recognizes_expect fun _ d₁ hd₁ => ?_
  refine (forInit_recognizes (by omega)).bind fun init d₂ hd₂ => ?_
  refine (expressionUnless_recognizes _ (by omega)).bind fun cond d₃ hd₃ => ?_
  refine recognizes_expect fun _ d₄ hd₄ => ?_
  refine (expressionUnless_recognizes _ (by omega)).bind fun step d₅ hd₅ => ?_
  refine recognizes_expect fun _ d₆ hd₆ => recognizes_pure (by omega) fun z hz y hy x hx => ?_
  exact derives_forClauses.mpr ⟨x, y, z, rfl, hx, hy, hz⟩

theorem conditionOrTrue_recognizes (cond : Option Expr) (hlimit : c.ahead.length < limit) :
    Recognizes (conditionOrTrue cond) c limit fun _ w => w = [] := by
  cases cond with
  | some e => exact recognizes_pure hlimit rfl
  | none => exact recognizes_freshId fun id d hd => recognizes_pure (by omega) rfl

theorem condition_recognizes (opening closing : Expected) (hn : 32 * c.ahead.length + 15 ≤ n) :
    Recognizes (condition n opening closing) c c.ahead.length fun _ w => Derives .condition w := by
  refine recognizes_expect fun _ d₁ hd₁ => ?_
  refine ((expressionRecognizes n).expression d₁ (by omega)).bind fun cond d₂ hd₂ => ?_
  refine recognizes_expect fun _ d₃ hd₃ => recognizes_pure (by omega) fun u hu => ?_
  exact derives_condition.mpr ⟨u, rfl, hu⟩

theorem superclass_recognizes :
    Recognizes superclass c (c.ahead.length + 1) fun _ w =>
      w = [.symbol .less, .identifier] ∨ w = [] := by
  refine recognizes_accept ?_ fun _ d₁ hd₁ => ?_
  · exact recognizes_pure (Nat.lt_succ_self _) (Or.inr rfl)
  · refine recognizes_expect fun name d₂ hd₂ => recognizes_freshId fun id d₃ hd₃ => ?_
    exact recognizes_pure (by omega) (Or.inl rfl)

theorem parametersFrom_recognizes (n count : Nat) (c : Cursor)
    (hn : 32 * c.ahead.length + 1 ≤ n) :
    Recognizes (parametersFrom n count) c c.ahead.length fun _ w =>
      count < maxArity ∧ Derives (.listOf (maxArity - 1 - count) .ident) w := by
  induction n generalizing count c with
  | zero => omega
  | succ n ih =>
    rw [parametersFrom]
    refine recognizes_checkArity fun d₁ hd₁ => recognizes_expect fun name d₂ hd₂ => ?_
    refine recognizes_accept ?_ fun _ d₃ hd₃ => ?_
    · refine recognizes_pure (by omega) fun hcount => ⟨hcount, ?_⟩
      exact derives_listOf.mpr (Or.inl (derives_ident.mpr rfl))
    · refine (ih (count + 1) d₃ (by omega)).bind fun rest d₄ hd₄ => ?_
      refine recognizes_pure (by omega) fun v hv hcount => ⟨hcount, ?_⟩
      have hroom := hv.1
      rw [List.append_nil]
      exact derives_listOf.mpr
        (Or.inr ⟨_, [.identifier], v, by omega, rfl, derives_ident.mpr rfl, hv.2⟩)

theorem parameters_recognizes (hn : 32 * c.ahead.length + 1 ≤ n) :
    Recognizes (parameters n) c (c.ahead.length + 1) fun _ w =>
      Derives (.opt (.rule .parameters)) w := by
  refine recognizes_check fun closing => ?_
  cases closing with
  | true => exact recognizes_pure (Nat.lt_succ_self _) .absent
  | false =>
    exact (parametersFrom_recognizes n 0 c hn).mono (by omega) fun _ w hw => .present (.rule hw.2)

theorem functionHead_recognizes (sort : FunctionSort) (hn : 32 * c.ahead.length ≤ n) :
    Recognizes (functionHead n sort) c c.ahead.length fun _ w => Derives .functionHead w := by
  refine recognizes_expect fun name d₁ hd₁ => recognizes_expect fun _ d₂ hd₂ => ?_
  refine (parameters_recognizes (by omega)).bind fun params d₃ hd₃ => ?_
  refine recognizes_expect fun _ d₄ hd₄ => recognizes_expect fun _ d₅ hd₅ => ?_
  refine recognizes_pure (by omega) fun u hu => ?_
  exact derives_functionHead.mpr ⟨u, rfl, hu⟩

/-! ### Declarations and statements -/

/-- What is known of the readers of declarations and statements at some fuel. -/
structure StatementRecognizes (n : Nat) : Prop where
  declaration : ∀ c, c.ahead ≠ [] → 32 * c.ahead.length + 17 ≤ n →
    Recognizes (declaration n) c c.ahead.length fun _ w => Derives (.rule .declaration) w
  classDeclaration : ∀ c, 32 * c.ahead.length + 1 ≤ n →
    Recognizes (classDeclaration n) c c.ahead.length fun _ w => Derives .classTail w
  methods : ∀ c, 32 * c.ahead.length + 2 ≤ n →
    Recognizes (methods n) c (c.ahead.length + 1) fun _ w => Derives (.many (.rule .function)) w
  function : ∀ sort c, 32 * c.ahead.length + 1 ≤ n →
    Recognizes (function n sort) c c.ahead.length fun _ w => Derives (.rule .function) w
  statement : ∀ c, 32 * c.ahead.length + 16 ≤ n →
    Recognizes (statement n) c c.ahead.length fun _ w => Derives (.rule .statement) w
  block : ∀ c, 32 * c.ahead.length + 19 ≤ n →
    Recognizes (block n) c c.ahead.length fun _ w => Derives .blockTail w
  declarations : ∀ inBlock c, 32 * c.ahead.length + 18 ≤ n →
    Recognizes (declarations n inBlock) c (if inBlock then c.ahead.length + 1 else 1) fun _ w =>
      Derives (.many (.rule .declaration)) w

theorem declaration_recognizes (ih : StatementRecognizes n) (c : Cursor) (hahead : c.ahead ≠ [])
    (hn : 32 * c.ahead.length + 17 ≤ n + 1) :
    Recognizes (declaration (n + 1)) c c.ahead.length fun _ w =>
      Derives (.rule .declaration) w := by
  rw [declaration]
  refine (recognizes_recover (L := fun _ w => Derives (.rule .declaration) w) ?_ hahead).mono le_rfl
    fun _ w ⟨_, _, hw⟩ => hw
  simp only [derives_declaration]
  refine recognizes_accept ?_ fun _ d₁ hd₁ => ?_
  swap
  · refine (ih.classDeclaration d₁ (by omega)).mono hd₁.le fun _ w hw => ?_
    exact Or.inl (derives_classDecl.mpr ⟨w, rfl, hw⟩)
  refine recognizes_accept ?_ fun _ d₁ hd₁ => ?_
  swap
  · refine (ih.function _ d₁ (by omega)).bind fun f d₂ hd₂ => ?_
    refine recognizes_pure (by omega) fun u hu => ?_
    rw [List.append_nil]
    exact Or.inr (Or.inl (derives_funDecl.mpr ⟨u, rfl, hu⟩))
  refine recognizes_accept ?_ fun _ d₁ hd₁ => ?_
  · exact (ih.statement c (by omega)).mono le_rfl fun _ w hw => Or.inr (Or.inr (Or.inr hw))
  · refine (varDeclaration_recognizes (by omega)).mono hd₁.le fun _ w hw => ?_
    exact Or.inr (Or.inr (Or.inl (derives_varDecl.mpr ⟨w, rfl, hw⟩)))

theorem classDeclaration_recognizes (ih : StatementRecognizes n) (c : Cursor)
    (hn : 32 * c.ahead.length + 1 ≤ n + 1) :
    Recognizes (classDeclaration (n + 1)) c c.ahead.length fun _ w => Derives .classTail w := by
  rw [classDeclaration]
  refine recognizes_expect fun name d₁ hd₁ => superclass_recognizes.bind fun super d₂ hd₂ => ?_
  refine recognizes_expect fun _ d₃ hd₃ => (ih.methods d₃ (by omega)).bind fun decls d₄ hd₄ => ?_
  refine recognizes_expect fun _ d₅ hd₅ => recognizes_pure (by omega) fun v hv u hu => ?_
  exact derives_classTail.mpr ⟨u, v, rfl, hu, hv⟩

theorem methods_recognizes (ih : StatementRecognizes n) (c : Cursor)
    (hn : 32 * c.ahead.length + 2 ≤ n + 1) :
    Recognizes (methods (n + 1)) c (c.ahead.length + 1) fun _ w =>
      Derives (.many (.rule .function)) w := by
  rw [methods]
  refine recognizes_atClosing (fun _ => recognizes_pure (Nat.lt_succ_self _) .done) fun _ => ?_
  refine (ih.function _ c (by omega)).bind fun first d₁ hd₁ => ?_
  refine (ih.methods d₁ (by omega)).bind fun rest d₂ hd₂ => ?_
  refine recognizes_pure (by omega) fun v hv u hu => ?_
  rw [List.append_nil]
  exact .more hu hv

theorem function_recognizes (ih : StatementRecognizes n) (sort : FunctionSort) (c : Cursor)
    (hn : 32 * c.ahead.length + 1 ≤ n + 1) :
    Recognizes (function (n + 1) sort) c c.ahead.length fun _ w =>
      Derives (.rule .function) w := by
  rw [function]
  refine (functionHead_recognizes sort (by omega)).bind fun ⟨name, params⟩ d₁ hd₁ => ?_
  refine (ih.block d₁ (by omega)).bind fun body d₂ hd₂ => ?_
  refine recognizes_pure (by omega) fun v hv u hu => ?_
  rw [List.append_nil]
  exact derives_function.mpr ⟨u, v, rfl, hu, hv⟩

theorem statement_recognizes (ih : StatementRecognizes n) (c : Cursor)
    (hn : 32 * c.ahead.length + 16 ≤ n + 1) :
    Recognizes (statement (n + 1)) c c.ahead.length fun _ w => Derives (.rule .statement) w := by
  rw [statement]
  simp only [derives_statement]
  refine recognizes_accept ?_ fun _ d₁ hd₁ => ?_
  swap
  · refine (forClauses_recognizes (by omega)).bind fun ⟨init, cond, step⟩ d₂ hd₂ => ?_
    refine (ih.statement d₂ (by omega)).bind fun body d₃ hd₃ => ?_
    refine (conditionOrTrue_recognizes cond hd₃).bind fun cond' d₄ hd₄ => ?_
    refine recognizes_pure (by omega) fun x hx v hv u hu => Or.inr (Or.inl ?_)
    obtain rfl := hx
    rw [List.append_nil, List.append_nil]
    exact derives_forStmt.mpr ⟨u, v, rfl, hu, hv⟩
  refine recognizes_accept ?_ fun _ d₁ hd₁ => ?_
  swap
  · refine (condition_recognizes _ _ (by omega)).bind fun cond d₂ hd₂ => ?_
    refine (ih.statement d₂ (by omega)).bind fun thenBranch d₃ hd₃ => ?_
    refine recognizes_accept ?_ fun _ d₄ hd₄ => ?_
    · refine recognizes_pure (by omega) fun v hv u hu => Or.inr (Or.inr (Or.inl ?_))
      exact derives_ifStmt.mpr ⟨u, v, [], rfl, hu, hv, Or.inr rfl⟩
    · refine (ih.statement d₄ (by omega)).bind fun elseBranch d₅ hd₅ => ?_
      refine recognizes_pure (by omega) fun x hx v hv u hu => Or.inr (Or.inr (Or.inl ?_))
      rw [List.append_nil]
      exact derives_ifStmt.mpr ⟨u, v, _, rfl, hu, hv, Or.inl ⟨x, rfl, hx⟩⟩
  refine recognizes_accept ?_ fun _ d₁ hd₁ => ?_
  swap
  · refine (condition_recognizes _ _ (by omega)).bind fun cond d₂ hd₂ => ?_
    refine (ih.statement d₂ (by omega)).bind fun body d₃ hd₃ => ?_
    refine recognizes_pure (by omega) fun v hv u hu => ?_
    rw [List.append_nil]
    have hwhile := derives_whileStmt.mpr ⟨u, v, rfl, hu, hv⟩
    exact Or.inr (Or.inr (Or.inr (Or.inr (Or.inr (Or.inl hwhile)))))
  refine recognizes_accept ?_ fun keyword d₁ hd₁ => ?_
  swap
  · refine (returnStatement_recognizes keyword (by omega)).mono hd₁.le fun _ w hw => ?_
    exact Or.inr (Or.inr (Or.inr (Or.inr (Or.inl hw))))
  refine recognizes_accept ?_ fun _ d₁ hd₁ => ?_
  swap
  · refine (ih.block d₁ (by omega)).bind fun body d₂ hd₂ => ?_
    refine recognizes_pure (by omega) fun u hu => ?_
    rw [List.append_nil]
    have hblock := derives_block.mpr ⟨u, rfl, hu⟩
    exact Or.inr (Or.inr (Or.inr (Or.inr (Or.inr (Or.inr hblock)))))
  refine recognizes_accept ?_ fun _ d₁ hd₁ => ?_
  · exact (expressionStatement_recognizes (by omega)).mono le_rfl fun _ w hw => Or.inl hw
  · refine (printStatement_recognizes (by omega)).mono hd₁.le fun _ w hw => ?_
    exact Or.inr (Or.inr (Or.inr (Or.inl hw)))

theorem block_recognizes (ih : StatementRecognizes n) (c : Cursor)
    (hn : 32 * c.ahead.length + 19 ≤ n + 1) :
    Recognizes (block (n + 1)) c c.ahead.length fun _ w => Derives .blockTail w := by
  rw [block]
  refine (ih.declarations true c (by omega)).bind fun body d₁ hd₁ => ?_
  rw [if_pos rfl] at hd₁
  refine recognizes_expect fun _ d₂ hd₂ => recognizes_pure (by omega) fun u hu => ?_
  exact derives_blockTail.mpr ⟨u, rfl, hu⟩

theorem declarations_recognizes (ih : StatementRecognizes n) (inBlock : Bool) (c : Cursor)
    (hn : 32 * c.ahead.length + 18 ≤ n + 1) :
    Recognizes (declarations (n + 1) inBlock) c (if inBlock then c.ahead.length + 1 else 1)
      fun _ w => Derives (.many (.rule .declaration)) w := by
  rw [declarations]
  -- Outside of braces, reading stops only at the end of file; that is what the limit says.
  refine recognizes_atClosing (fun hclosing => recognizes_pure ?_ .done) fun hahead => ?_
  · rcases hclosing with hnil | rfl
    · cases inBlock <;> simp [hnil]
    · simp
  · refine (ih.declaration c hahead (by omega)).bind fun first d₁ hd₁ => ?_
    refine (ih.declarations inBlock d₁ (by omega)).bind fun rest d₂ hd₂ => ?_
    refine recognizes_pure ?_ fun v hv u hu => ?_
    · cases inBlock <;> simp only [if_true, Bool.false_eq_true, if_false] at hd₂ ⊢ <;> omega
    · rw [List.append_nil]
      exact .more hu hv

theorem statementRecognizes (n : Nat) : StatementRecognizes n := by
  induction n with
  | zero => constructor <;> intros <;> omega
  | succ n ih =>
    exact ⟨declaration_recognizes ih, classDeclaration_recognizes ih, methods_recognizes ih,
      function_recognizes ih, statement_recognizes ih, block_recognizes ih,
      declarations_recognizes ih⟩

end Parse

end Lox
