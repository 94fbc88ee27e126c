import Lox.Proofs.Grammar.Lookahead

/-!
# Expressions before a closing token

An expression that was read up to the end of the input has looked at what follows it, to see whether
it goes on there. It finds nothing at the end of the input, and no more in front of a token that can
neither begin nor go on with an expression, such as a semicolon. So it is read in the same way in
front of such a token (`Parse.expression_closed`).

Inside of parentheses there is always a token left to look at, and what is known of expressions that
peek suffices there.
-/

namespace Lox

/-- No expression begins with a token of this kind, and none goes on with it. -/
def TokenKind.isClosing : TokenKind → Bool
  | .symbol .semicolon | .symbol .rightParen | .symbol .rightBrace | .symbol .comma => true
  | _ => false

namespace Parse

variable {us : List Token} {eof : Token} {n n' : Nat}

/-- The tokens that follow start with a closing one, if there are any. -/
def ClosedBy (us : List Token) : Prop := ∀ t ∈ us.head?, t.kind.isClosing = true

/-- What no closing token passes is not found at the end. -/
theorem ClosedBy.acceptIf (hus : ClosedBy us) {test : TokenKind → Bool}
    (htest : ∀ k, test k = true → k.isClosing = false) :
    Local us eof .ends (acceptIf test) (acceptIf test) := by
  refine local_acceptIf_of_head? fun t ht => ?_
  cases hpass : test t.kind with
  | false => rfl
  | true => exact absurd (htest _ hpass) (by simp [hus t ht])

theorem ClosedBy.accept (hus : ClosedBy us) {k : TokenKind} (hk : k.isClosing = false) :
    Local us eof .ends (accept k) (accept k) := by
  refine hus.acceptIf fun k' hk' => ?_
  rw [eq_of_beq hk', hk]

theorem hasOperator_not_closing (l : Level) (k : TokenKind) (h : l.hasOperator k = true) :
    k.isClosing = false := by
  unfold Level.hasOperator at h
  split at h <;> first | rfl | cases h

theorem isUnaryOperator_not_closing (k : TokenKind) (h : isUnaryOperator k = true) :
    k.isClosing = false := by
  unfold isUnaryOperator at h
  split at h <;> first | rfl | cases h

theorem literalOf?_not_closing (k : TokenKind) (h : (literalOf? k).isSome = true) :
    k.isClosing = false := by
  unfold literalOf? at h
  split at h <;> first | rfl | cases h

/-- Expressions end in front of a closing token. -/
structure ExpressionClosed (us : List Token) (eof : Token) (n n' : Nat) : Prop where
  expression : Local us eof .ends (expression n) (expression n')
  chain (l : Level) : Local us eof .ends (chain n l) (chain n' l)
  chainRest (l : Level) (left : Expr) :
    Local us eof .ends (chainRest n l left) (chainRest n' l left)
  operand (l : Level) : Local us eof .ends (operand n l) (operand n' l)
  unary : Local us eof .ends (unary n) (unary n')
  callRest (e : Expr) : Local us eof .ends (callRest n e) (callRest n' e)
  primary : Local us eof .ends (primary n) (primary n')

section Cases

variable (hus : ClosedBy us) (ih : ExpressionClosed us eof n n')

include hus ih

theorem expression_closes :
    Local us eof .ends (expression (n + 1)) (expression (n' + 1)) := by
  refine (ih.chain .or).bindEnds fun target => (hus.accept rfl).bindEnds fun r => ?_
  cases r with
  | none => exact local_pure _
  | some equals => exact ih.expression.bindEnds fun value => assignment_local target equals value

theorem chainRest_closes (l : Level) (left : Expr) :
    Local us eof .ends (chainRest (n + 1) l left) (chainRest (n' + 1) l left) := by
  refine (hus.acceptIf (hasOperator_not_closing l)).bindEnds fun r => ?_
  cases r with
  | none => exact local_pure _
  | some op =>
    exact (ih.operand l).bindEnds fun _ => local_freshId.bindEnds fun _ => ih.chainRest l _

theorem unary_closes : Local us eof .ends (unary (n + 1)) (unary (n' + 1)) := by
  refine (hus.acceptIf isUnaryOperator_not_closing).bindEnds fun r => ?_
  cases r with
  | none => exact ih.primary.bindEnds fun e => ih.callRest e
  | some op => exact ih.unary.bindEnds fun _ => local_freshId.bindEnds fun _ => local_pure _

theorem callRest_closes (h : n ≤ n') (e : Expr) :
    Local us eof .ends (callRest (n + 1) e) (callRest (n' + 1) e) := by
  refine (hus.accept rfl).bindEnds fun r => ?_
  cases r with
  | some _ =>
    -- the arguments look no further than the closing parenthesis
    exact ((expressionLocal us eof h).arguments.before fun _ => (local_expect _ _).andThen fun _ =>
      local_freshId.bindEnds fun _ => ih.callRest _).ends
  | none =>
    refine (hus.accept rfl).bindEnds fun r => ?_
    cases r with
    | some _ => exact (property_local e).ends.bindEnds fun object => ih.callRest object
    | none => exact local_pure _

omit ih in
theorem primary_closes (h : n ≤ n') :
    Local us eof .ends (primary (n + 1)) (primary (n' + 1)) := by
  have hnode : ∀ make : NodeId → Expr, Local us eof .ends (freshId >>= fun id => pure (make id))
      (freshId >>= fun id => pure (make id)) :=
    fun make => local_freshId.bindEnds fun _ => local_pure _
  refine (hus.acceptIf literalOf?_not_closing).bindEnds fun r => ?_
  cases r with
  | some t => exact hnode _
  | none =>
  refine (hus.accept rfl).bindEnds fun r => ?_
  cases r with
  | some keyword => exact (superAccess_local keyword).ends
  | none =>
  refine (hus.accept rfl).bindEnds fun r => ?_
  cases r with
  | some keyword => exact hnode _
  | none =>
  refine (hus.accept rfl).bindEnds fun r => ?_
  cases r with
  | some name => exact hnode _
  | none =>
  refine (hus.accept rfl).bindEnds fun r => ?_
  cases r with
  | some _ =>
    exact ((expressionLocal us eof h).expression.before fun _ =>
      (local_expect _ _).andThen fun _ => hnode _).ends
  | none => exact local_failWith _ _

end Cases

theorem expressionClosed (hus : ClosedBy us) (eof : Token) {n n' : Nat} (h : n ≤ n') :
    ExpressionClosed us eof n n' := by
  induction n generalizing n' with
  | zero =>
    exact ⟨local_outOfFuel _, fun _ => local_outOfFuel _, fun _ _ => local_outOfFuel _,
      fun _ => local_outOfFuel _, local_outOfFuel _, fun _ => local_outOfFuel _, local_outOfFuel _⟩
  | succ n hn =>
    obtain ⟨n', rfl⟩ : ∃ m, n' = m + 1 := ⟨n' - 1, by omega⟩
    have hle := Nat.le_of_succ_le_succ h
    have ih := hn hle
    refine ⟨expression_closes hus ih, fun l => ?_, chainRest_closes hus ih, fun l => ?_,
      unary_closes hus ih, callRest_closes hus ih hle, primary_closes hus hle⟩
    · exact (ih.operand l).bindEnds fun left => ih.chainRest l left
    · unfold operand
      split
      · exact ih.chain _
      · exact ih.unary

/-- An expression that is read without a complaint is read in the same way if the input goes on with
a closing token. -/
theorem expression_closed {c d : Cursor} {e : Expr} (hus : ClosedBy us) (eof : Token) (h : n ≤ n')
    (hrun : expression n c = .ok e d) (hclean : d.complaints = c.complaints) :
    expression n' (c.followedBy us eof) = .ok e (d.followedBy us eof) :=
  ((((expressionClosed hus eof h).expression c).of_ok hrun).2 hclean trivial).2

end Parse

end Lox
