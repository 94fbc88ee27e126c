import Lox.Proofs.Grammar.Following
import Lox.Proofs.Grammar.Language

/-!
# Reading stays within the tokens

The readers by index do what the readers of `Lox.Grammar` do, step by step and with the same fuel:
there is one lemma for each reader, and the induction is on the fuel. From this it follows for every
list of tokens with an end of file that reading it comes to an end, that no token beyond the first
end of file is looked at, and that each round of a loop moves on or is the last one.
-/

namespace Lox

namespace Indexed

variable {tape : Tape} {c : Cursor} {n : Nat}

/-! ### Expressions -/

theorem superAccess_follows (keyword : Token) :
    Follows tape (Parse.superAccess keyword) (superAccess keyword) c c.ahead.length := by
  refine follows_expect fun _ d₁ hd₁ => follows_expect fun method d₂ hd₂ => ?_
  exact follows_freshId fun id d₃ hd₃ => follows_pure _ (by omega)

theorem property_follows (object : Expr) :
    Follows tape (Parse.property object) (property object) c c.ahead.length := by
  refine follows_expect fun name d₁ hd₁ => ?_
  exact follows_freshId fun id d₂ hd₂ => follows_pure _ (by omega)

theorem assignment_follows (target : Expr) (equals : Token) (value : Expr) :
    Follows tape (Parse.assignment target equals value) (assignment target equals value) c
      (c.ahead.length + 1) := by
  cases target with
  | var | get => exact follows_freshId fun id d hd => follows_pure _ (by omega)
  | _ => exact follows_complain fun d hd => follows_pure _ (by omega)

/-- What is known of the readers of expressions at some fuel. -/
structure ExpressionFollows (tape : Tape) (n : Nat) : Prop where
  expression : ∀ c, Follows tape (Parse.expression n) (expression n) c c.ahead.length
  chain : ∀ l c, Follows tape (Parse.chain n l) (chain n l) c c.ahead.length
  chainRest : ∀ l left c, Follows tape (Parse.chainRest n l left) (chainRest n l left) c
    (c.ahead.length + 1)
  operand : ∀ l c, Follows tape (Parse.operand n l) (operand n l) c c.ahead.length
  unary : ∀ c, Follows tape (Parse.unary n) (unary n) c c.ahead.length
  callRest : ∀ e c, Follows tape (Parse.callRest n e) (callRest n e) c (c.ahead.length + 1)
  arguments : ∀ c, Follows tape (Parse.arguments n) (arguments n) c (c.ahead.length + 1)
  argumentsFrom : ∀ count c, Follows tape (Parse.argumentsFrom n count) (argumentsFrom n count) c
    c.ahead.length
  primary : ∀ c, Follows tape (Parse.primary n) (primary n) c c.ahead.length

theorem expression_follows (ih : ExpressionFollows tape n) (c : Cursor) :
    Follows tape (Parse.expression (n + 1)) (expression (n + 1)) c c.ahead.length := by
  rw [Parse.expression, expression]
  refine (ih.chain .or c).bind fun target d₁ hd₁ => follows_accept ?_ fun equals d₂ hd₂ => ?_
  · exact follows_pure target hd₁
  · refine (ih.expression d₂).bind fun value d₃ hd₃ => ?_
    exact (assignment_follows target equals value).mono (by omega)

theorem chain_follows (ih : ExpressionFollows tape n) (l : Level) (c : Cursor) :
    Follows tape (Parse.chain (n + 1) l) (chain (n + 1) l) c c.ahead.length := by
  rw [Parse.chain, chain]
  exact (ih.operand l c).bind fun left d hd => (ih.chainRest l left d).mono (by omega)

theorem chainRest_follows (ih : ExpressionFollows tape n) (l : Level) (left : Expr) (c : Cursor) :
    Follows tape (Parse.chainRest (n + 1) l left) (chainRest (n + 1) l left) c
      (c.ahead.length + 1) := by
  rw [Parse.chainRest, chainRest]
  refine follows_round fun start hstart => .assoc <| follows_acceptIf ?_ fun op d₁ hd₁ => ?_
  · exact follows_leave left (Nat.lt_succ_self _)
  · refine .assoc <| (ih.operand l d₁).bind fun right d₂ hd₂ => ?_
    refine .assoc <| follows_freshId fun id d₃ hd₃ => ?_
    exact follows_again (by omega) ((ih.chainRest l _ d₃).mono (by omega))

theorem operand_follows (ih : ExpressionFollows tape n) (l : Level) (c : Cursor) :
    Follows tape (Parse.operand (n + 1) l) (operand (n + 1) l) c c.ahead.length := by
  rw [Parse.operand, operand]
  cases l.tighter? with
  | some l' => exact ih.chain l' c
  | none => exact ih.unary c

theorem unary_follows (ih : ExpressionFollows tape n) (c : Cursor) :
    Follows tape (Parse.unary (n + 1)) (unary (n + 1)) c c.ahead.length := by
  rw [Parse.unary, unary]
  refine follows_acceptIf ?_ fun op d₁ hd₁ => ?_
  · exact (ih.primary c).bind fun e d₂ hd₂ => (ih.callRest e d₂).mono (by omega)
  · refine (ih.unary d₁).bind fun right d₂ hd₂ => ?_
    exact follows_freshId fun id d₃ hd₃ => follows_pure _ (by omega)

theorem callRest_follows (ih : ExpressionFollows tape n) (e : Expr) (c : Cursor) :
    Follows tape (Parse.callRest (n + 1) e) (callRest (n + 1) e) c (c.ahead.length + 1) := by
  rw [Parse.callRest, callRest]
  refine follows_round fun start hstart => .assoc <| follows_accept ?_ fun _ d₁ hd₁ => ?_
  · refine .assoc <| follows_accept ?_ fun _ d₁ hd₁ => ?_
    · exact follows_leave e (Nat.lt_succ_self _)
    · refine .assoc <| (property_follows e).bind fun object d₂ hd₂ => ?_
      exact follows_again (by omega) ((ih.callRest object d₂).mono (by omega))
  · refine .assoc <| (ih.arguments d₁).bind fun args d₂ hd₂ => ?_
    refine .assoc <| follows_expect fun paren d₃ hd₃ => ?_
    refine .assoc <| follows_freshId fun id d₄ hd₄ => ?_
    exact follows_again (by omega) ((ih.callRest _ d₄).mono (by omega))

theorem arguments_follows (ih : ExpressionFollows tape n) (c : Cursor) :
    Follows tape (Parse.arguments (n + 1)) (arguments (n + 1)) c (c.ahead.length + 1) := by
  rw [Parse.arguments, arguments]
  refine follows_check ?_
  cases c.check (.symbol .rightParen) with
  | true => exact follows_pure [] (Nat.lt_succ_self _)
  | false => exact (ih.argumentsFrom 0 c).mono (Nat.le_succ _)

theorem argumentsFrom_follows (ih : ExpressionFollows tape n) (count : Nat) (c : Cursor) :
    Follows tape (Parse.argumentsFrom (n + 1) count) (argumentsFrom (n + 1) count) c
      c.ahead.length := by
  rw [Parse.argumentsFrom, argumentsFrom]
  refine follows_round fun start hstart => .assoc <| follows_checkArity fun d₁ hd₁ => ?_
  refine .assoc <| (ih.expression d₁).bind fun e d₂ hd₂ => ?_
  refine .assoc <| follows_accept ?_ fun _ d₃ hd₃ => ?_
  · exact follows_leave [e] (by omega)
  · refine follows_again (by omega) ?_
    exact (ih.argumentsFrom (count + 1) d₃).bind fun rest d₄ hd₄ => follows_pure _ (by omega)

theorem primary_follows (ih : ExpressionFollows tape n) (c : Cursor) :
    Follows tape (Parse.primary (n + 1)) (primary (n + 1)) c c.ahead.length := by
  rw [Parse.primary, primary]
  refine follows_acceptIf ?_ fun t d₁ hd₁ => ?_
  swap
  · exact follows_freshId fun id d₂ hd₂ => follows_pure _ (by omega)
  refine follows_accept ?_ fun keyword d₁ hd₁ => (superAccess_follows keyword).mono (by omega)
  refine follows_accept ?_ fun keyword d₁ hd₁ => ?_
  swap
  · exact follows_freshId fun id d₂ hd₂ => follows_pure _ (by omega)
  refine follows_accept ?_ fun name d₁ hd₁ => ?_
  swap
  · exact follows_freshId fun id d₂ hd₂ => follows_pure _ (by omega)
  refine follows_accept (follows_failWith _) fun _ d₁ hd₁ => ?_
  refine (ih.expression d₁).bind fun inner d₂ hd₂ => follows_expect fun _ d₃ hd₃ => ?_
  exact follows_freshId fun id d₄ hd₄ => follows_pure _ (by omega)

theorem expressionFollows (tape : Tape) (n : Nat) : ExpressionFollows tape n := by
  induction n with
  | zero => constructor <;> intros <;> exact follows_outOfFuel
  | succ n ih =>
    exact ⟨expression_follows ih, chain_follows ih, chainRest_follows ih, operand_follows ih,
      unary_follows ih, callRest_follows ih, arguments_follows ih, argumentsFrom_follows ih,
      primary_follows ih⟩

/-! ### Statements without parts of their own kind -/

theorem follows_expression (n : Nat) (c : Cursor) :
    Follows tape (Parse.expression n) (expression n) c c.ahead.length :=
  (expressionFollows tape n).expression c

theorem expressionUnless_follows (n : Nat) (k : TokenKind) :
    Follows tape (Parse.expressionUnless n k) (expressionUnless n k) c (c.ahead.length + 1) := by
  refine follows_check ?_
  cases c.check k with
  | true => exact follows_pure none (Nat.lt_succ_self _)
  | false => exact (follows_expression n c).bind fun e d hd => follows_pure _ (by omega)

theorem varDeclaration_follows (n : Nat) :
    Follows tape (Parse.varDeclaration n) (varDeclaration n) c c.ahead.length := by
  refine follows_expect fun name d₁ hd₁ => follows_accept ?_ fun _ d₂ hd₂ => ?_
  · exact follows_expect fun _ d₂ hd₂ => follows_pure _ (by omega)
  · refine (follows_expression n d₂).bind fun init d₃ hd₃ => ?_
    exact follows_expect fun _ d₄ hd₄ => follows_pure _ (by omega)

theorem expressionStatement_follows (n : Nat) :
    Follows tape (Parse.expressionStatement n) (expressionStatement n) c c.ahead.length := by
  refine (follows_expression n c).bind fun e d₁ hd₁ => ?_
  exact follows_expect fun _ d₂ hd₂ => follows_pure _ (by omega)

theorem printStatement_follows (n : Nat) :
    Follows tape (Parse.printStatement n) (printStatement n) c c.ahead.length := by
  refine (follows_expression n c).bind fun e d₁ hd₁ => ?_
  exact follows_expect fun _ d₂ hd₂ => follows_pure _ (by omega)

theorem returnStatement_follows (n : Nat) (keyword : Token) :
    Follows tape (Parse.returnStatement n keyword) (returnStatement n keyword) c
      c.ahead.length := by
  refine (expressionUnless_follows n _).bind fun value d₁ hd₁ => ?_
  exact follows_expect fun _ d₂ hd₂ => follows_pure _ (by omega)

theorem forInit_follows (n : Nat) :
    Follows tape (Parse.forInit n) (forInit n) c c.ahead.length := by
  refine follows_accept (follows_accept ?_ fun _ d₁ hd₁ => ?_) fun _ d₁ hd₁ => ?_
  · exact (expressionStatement_follows n).bind fun s d₁ hd₁ => follows_pure _ hd₁
  · exact (varDeclaration_follows n).bind fun s d₂ hd₂ => follows_pure _ (by omega)
  · exact follows_pure none hd₁

theorem forClauses_follows (n : Nat) :
    Follows tape (Parse.forClauses n) (forClauses n) c c.ahead.length := by
  refine follows_expect fun _ d₁ hd₁ => (forInit_follows n).bind fun init d₂ hd₂ => ?_
  refine (expressionUnless_follows n _).bind fun cond d₃ hd₃ => ?_
  refine follows_expect fun _ d₄ hd₄ => (expressionUnless_follows n _).bind fun step d₅ hd₅ => ?_
  exact follows_expect fun _ d₆ hd₆ => follows_pure _ (by omega)

theorem conditionOrTrue_follows (cond : Option Expr) :
    Follows tape (Parse.conditionOrTrue cond) (conditionOrTrue cond) c (c.ahead.length + 1) := by
  cases cond with
  | some e => exact follows_pure e (Nat.lt_succ_self _)
  | none => exact follows_freshId fun id d hd => follows_pure _ (by omega)

theorem condition_follows (n : Nat) (opening closing : Expected) :
    Follows tape (Parse.condition n opening closing) (condition n opening closing) c
      c.ahead.length := by
  refine follows_expect fun _ d₁ hd₁ => (follows_expression n d₁).bind fun cond d₂ hd₂ => ?_
  exact follows_expect fun _ d₃ hd₃ => follows_pure cond (by omega)

theorem superclass_follows :
    Follows tape Parse.superclass superclass c (c.ahead.length + 1) := by
  refine follows_accept (follows_pure none (Nat.lt_succ_self _)) fun _ d₁ hd₁ => ?_
  refine follows_expect fun name d₂ hd₂ => ?_
  exact follows_freshId fun id d₃ hd₃ => follows_pure _ (by omega)

theorem parametersFrom_follows (n count : Nat) (c : Cursor) :
    Follows tape (Parse.parametersFrom n count) (parametersFrom n count) c c.ahead.length := by
  induction n generalizing count c with
  | zero => exact follows_outOfFuel
  | succ n ih =>
    rw [Parse.parametersFrom, parametersFrom]
    refine follows_round fun start hstart => .assoc <| follows_checkArity fun d₁ hd₁ => ?_
    refine .assoc <| follows_expect fun name d₂ hd₂ => ?_
    refine .assoc <| follows_accept ?_ fun _ d₃ hd₃ => ?_
    · exact follows_leave [name] (by omega)
    · refine follows_again (by omega) ?_
      exact (ih (count + 1) d₃).bind fun rest d₄ hd₄ => follows_pure _ (by omega)

theorem parameters_follows (n : Nat) :
    Follows tape (Parse.parameters n) (parameters n) c (c.ahead.length + 1) := by
  refine follows_check ?_
  cases c.check (.symbol .rightParen) with
  | true => exact follows_pure [] (Nat.lt_succ_self _)
  | false => exact (parametersFrom_follows n 0 c).mono (Nat.le_succ _)

theorem functionHead_follows (n : Nat) (sort : FunctionSort) :
    Follows tape (Parse.functionHead n sort) (functionHead n sort) c c.ahead.length := by
  refine follows_expect fun name d₁ hd₁ => follows_expect fun _ d₂ hd₂ => ?_
  refine (parameters_follows n).bind fun params d₃ hd₃ => ?_
  refine follows_expect fun _ d₄ hd₄ => follows_expect fun _ d₅ hd₅ => ?_
  exact follows_pure _ (by omega)

/-! ### Declarations and statements -/

/-- What is known of the readers of declarations and statements at some fuel. -/
structure StatementFollows (tape : Tape) (n : Nat) : Prop where
  declaration : ∀ c, c.ahead ≠ [] →
    Follows tape (Parse.declaration n) (declaration n) c c.ahead.length
  classDeclaration : ∀ c,
    Follows tape (Parse.classDeclaration n) (classDeclaration n) c c.ahead.length
  methods : ∀ c, Follows tape (Parse.methods n) (methods n) c (c.ahead.length + 1)
  function : ∀ sort c, Follows tape (Parse.function n sort) (function n sort) c c.ahead.length
  statement : ∀ c, Follows tape (Parse.statement n) (statement n) c c.ahead.length
  block : ∀ c, Follows tape (Parse.block n) (block n) c c.ahead.length
  declarations : ∀ inBlock c, Follows tape (Parse.declarations n inBlock) (declarations n inBlock) c
    (c.ahead.length + 1)

theorem declaration_follows (ih : StatementFollows tape n) (c : Cursor) (hahead : c.ahead ≠ []) :
    Follows tape (Parse.declaration (n + 1)) (declaration (n + 1)) c c.ahead.length := by
  rw [Parse.declaration, declaration]
  refine follows_recover hahead (follows_accept ?_ fun _ d₁ hd₁ => ?_)
  swap
  · exact (ih.classDeclaration d₁).mono hd₁.le
  refine follows_accept (follows_accept (ih.statement c) fun _ d₁ hd₁ => ?_) fun _ d₁ hd₁ => ?_
  · exact (varDeclaration_follows n).mono hd₁.le
  · exact (ih.function .function d₁).bind fun decl d₂ hd₂ => follows_pure _ (by omega)

theorem classDeclaration_follows (ih : StatementFollows tape n) (c : Cursor) :
    Follows tape (Parse.classDeclaration (n + 1)) (classDeclaration (n + 1)) c
      c.ahead.length := by
  rw [Parse.classDeclaration, classDeclaration]
  refine follows_expect fun name d₁ hd₁ => superclass_follows.bind fun super d₂ hd₂ => ?_
  refine follows_expect fun _ d₃ hd₃ => (ih.methods d₃).bind fun decls d₄ hd₄ => ?_
  exact follows_expect fun _ d₅ hd₅ => follows_pure _ (by omega)

theorem methods_follows (ih : StatementFollows tape n) (c : Cursor) :
    Follows tape (Parse.methods (n + 1)) (methods (n + 1)) c (c.ahead.length + 1) := by
  rw [Parse.methods, methods]
  refine follows_round fun start hstart => .assoc <| follows_atClosing ?_ fun _ => ?_
  · exact follows_leave [] (Nat.lt_succ_self _)
  · refine .assoc <| (ih.function .method c).bind fun first d₁ hd₁ => ?_
    refine follows_again (by omega) ?_
    exact (ih.methods d₁).bind fun rest d₂ hd₂ => follows_pure _ (by omega)

theorem function_follows (ih : StatementFollows tape n) (sort : FunctionSort) (c : Cursor) :
    Follows tape (Parse.function (n + 1) sort) (function (n + 1) sort) c c.ahead.length := by
  rw [Parse.function, function]
  refine (functionHead_follows n sort).bind fun head d₁ hd₁ => ?_
  exact (ih.block d₁).bind fun body d₂ hd₂ => follows_pure _ (by omega)

theorem statement_follows (ih : StatementFollows tape n) (c : Cursor) :
    Follows tape (Parse.statement (n + 1)) (statement (n + 1)) c c.ahead.length := by
  rw [Parse.statement, statement]
  -- The branches follow the keyword; the expression statement, without one, comes last.
  refine follows_accept ?_ fun _ d₁ hd₁ => ?_
  swap
  · refine (forClauses_follows n).bind fun clauses d₂ hd₂ => ?_
    refine (ih.statement d₂).bind fun body d₃ hd₃ => ?_
    exact (conditionOrTrue_follows _).bind fun cond d₄ hd₄ => follows_pure _ (by omega)
  refine follows_accept ?_ fun _ d₁ hd₁ => ?_
  swap
  · refine (condition_follows n _ _).bind fun cond d₂ hd₂ => ?_
    refine (ih.statement d₂).bind fun thenBranch d₃ hd₃ => follows_accept ?_ fun _ d₄ hd₄ => ?_
    · exact follows_pure _ (by omega)
    · exact (ih.statement d₄).bind fun elseBranch d₅ hd₅ => follows_pure _ (by omega)
  refine follows_accept ?_ fun _ d₁ hd₁ => ?_
  swap
  · refine (condition_follows n _ _).bind fun cond d₂ hd₂ => ?_
    exact (ih.statement d₂).bind fun body d₃ hd₃ => follows_pure _ (by omega)
  refine follows_accept ?_ fun keyword d₁ hd₁ => (returnStatement_follows n keyword).mono hd₁.le
  refine follows_accept ?_ fun _ d₁ hd₁ => ?_
  swap
  · exact (ih.block d₁).bind fun body d₂ hd₂ => follows_pure _ (by omega)
  refine follows_accept ?_ fun _ d₁ hd₁ => (printStatement_follows n).mono hd₁.le
  exact expressionStatement_follows n

theorem block_follows (ih : StatementFollows tape n) (c : Cursor) :
    Follows tape (Parse.block (n + 1)) (block (n + 1)) c c.ahead.length := by
  rw [Parse.block, block]
  refine (ih.declarations true c).bind fun body d₁ hd₁ => ?_
  exact follows_expect fun _ d₂ hd₂ => follows_pure body (by omega)

theorem declarations_follows (ih : StatementFollows tape n) (inBlock : Bool) (c : Cursor) :
    Follows tape (Parse.declarations (n + 1) inBlock) (declarations (n + 1) inBlock) c
      (c.ahead.length + 1) := by
  rw [Parse.declarations, declarations]
  refine follows_round fun start hstart => .assoc <| follows_atClosing ?_ fun hahead => ?_
  · exact follows_leave [] (Nat.lt_succ_self _)
  · refine .assoc <| (ih.declaration c hahead).bind fun first d₁ hd₁ => ?_
    refine follows_again (by omega) ?_
    exact (ih.declarations inBlock d₁).bind fun rest d₂ hd₂ => follows_pure _ (by omega)

theorem statementFollows (tape : Tape) (n : Nat) : StatementFollows tape n := by
  induction n with
  | zero => constructor <;> intros <;> exact follows_outOfFuel
  | succ n ih =>
    exact ⟨declaration_follows ih, classDeclaration_follows ih, methods_follows ih,
      function_follows ih, statement_follows ih, block_follows ih, declarations_follows ih⟩

theorem wholeExpression_follows (n : Nat) :
    Follows tape (Parse.wholeExpression n) (wholeExpression n) c c.ahead.length := by
  refine (follows_expression n c).bind fun e d hd => follows_atEnd ?_
  cases d.ahead.isEmpty with
  | true => exact follows_pure e hd
  | false => exact follows_failWith .endOfInput

end Indexed

/-! ### Reading a program does not fail -/

namespace Parse

variable {α β : Type}

def NeverFails (p : Parse α) : Prop := ∀ c, (p c).Ends True (fun _ _ => True) fun _ => False

theorem neverFails_pure (a : α) : NeverFails (pure a) := fun _ => trivial

theorem NeverFails.bind {p : Parse α} {f : α → Parse β} (hp : NeverFails p)
    (hf : ∀ a, NeverFails (f a)) : NeverFails (p >>= f) := by
  intro c
  have hfirst := hp c
  show (Parse.bind p f c).Ends _ _ _
  unfold Parse.bind
  cases hpc : p c with
  | ok a d => exact hf a d
  | fail x d =>
    rw [hpc] at hfirst
    exact hfirst
  | outOfFuel => trivial

theorem neverFails_recover (p : Parse α) : NeverFails (recover p) := by
  intro c
  unfold recover
  cases p c <;> trivial

theorem declaration_neverFails (n : Nat) : NeverFails (declaration n) := by
  cases n with
  | zero => exact fun _ => trivial
  | succ n =>
    rw [declaration]
    exact neverFails_recover _

theorem declarations_neverFails (n : Nat) (inBlock : Bool) :
    NeverFails (declarations n inBlock) := by
  induction n with
  | zero => exact fun _ => trivial
  | succ n ih =>
    rw [declarations]
    refine NeverFails.bind (fun _ => trivial) fun closing => ?_
    cases closing with
    | true => exact neverFails_pure []
    | false =>
      exact (declaration_neverFails n).bind fun first => ih.bind fun rest => neverFails_pure _

end Parse

/-! ### Whole inputs -/

/-- Nothing beyond the first end of file has been looked at, and each round of a loop has moved on
or left the loop. -/
structure Head.Within (h : Head) (tokens : List Token) : Prop where
  reads : ∀ i ∈ h.reads, i < tokens.length ∧ i ≤ tokens.findIdx Token.isEof
  rounds : ∀ r ∈ h.rounds, r.left = true ∨ r.start < r.stop

theorem Tape.Stands.within {tape : Tape} {h : Head} {c : Cursor} (hs : tape.Stands h c) :
    h.Within tape.tokens := by
  refine ⟨fun i hi => ?_, hs.rounds⟩
  have hle := hs.reads i hi
  have hlt := tape.length_body_lt
  rw [tape.findIdx_isEof]
  exact ⟨by omega, hle⟩

namespace Indexed

theorem program_lands (tape : Tape) (made : Nat) :
    ∃ d, d.complaints = (Program.ofTokens tape.tokens made).complaints ∧
      d.made = (Program.ofTokens tape.tokens made).made ∧ d.ahead = [] ∧
      Lands tape (program (Parse.fuelFor tape.tokens.length)) { made := made }
        (Program.ofTokens tape.tokens made).statements d := by
  have hlength := Cursor.length_ahead_ofTokens tape.tokens made
  have hread := (Parse.statementRecognizes (Parse.fuelFor tape.tokens.length)).declarations false
    (Cursor.ofTokens tape.tokens made) (by rw [Parse.fuelFor]; omega)
  have hend := (statementFollows tape (Parse.fuelFor tape.tokens.length)).declarations false _ _
    (tape.stands_start made)
  unfold Program.ofTokens
  split
  · rename_i statements d heq
    rw [heq] at hend
    obtain ⟨-, hlt, -⟩ := Parse.Spec.of_ok hread heq
    exact ⟨d, rfl, rfl, List.length_eq_zero_iff.mp (Nat.lt_one_iff.mp hlt), hend.lands⟩
  · rename_i x d heq
    have hnever := Parse.declarations_neverFails (Parse.fuelFor tape.tokens.length) false
      (Cursor.ofTokens tape.tokens made)
    rw [heq] at hnever
    exact hnever.elim
  · rename_i heq
    rw [Parse.Recognizes, Parse.Spec, heq] at hread
    exact hread.elim

theorem parsedExpr_lands (tape : Tape) (made : Nat) :
    ∃ d, d.complaints = (ParsedExpr.ofTokens tape.tokens made).complaints ∧
      d.made = (ParsedExpr.ofTokens tape.tokens made).made ∧
      Lands tape (parsedExpr (Parse.fuelFor tape.tokens.length)) { made := made }
        (ParsedExpr.ofTokens tape.tokens made).expr? d := by
  have hlength := Cursor.length_ahead_ofTokens tape.tokens made
  have hread := Parse.wholeExpression_recognizes (c := Cursor.ofTokens tape.tokens made)
    (n := Parse.fuelFor tape.tokens.length) (by rw [Parse.fuelFor]; omega)
  have hend := wholeExpression_follows (Parse.fuelFor tape.tokens.length) _ (tape.stands_start made)
  unfold ParsedExpr.ofTokens
  split
  · rename_i e d heq
    rw [heq] at hend
    obtain ⟨h, hq, hs⟩ := hend.lands
    exact ⟨d, rfl, rfl, h, by rw [parsedExpr, attempt, hq], hs⟩
  · rename_i x d heq
    rw [heq] at hend
    obtain ⟨h, hq, hs⟩ := hend.fails
    refine ⟨d.complain x, rfl, rfl, ?_⟩
    exact Lands.attempt_fail hq hs fun _ hs' => lands_pure hs' ()
  · rename_i heq
    rw [Parse.Recognizes, Parse.Spec, heq] at hread
    exact hread.elim

end Indexed

/-- Whatever the tokens before the last one, an end of file, are: reading them by index, as a
program or as an expression, comes to an end with the result of reading them by a cursor. It does
not look beyond the first end of file, and each round of a loop moves on or leaves the loop. A
program is read up to the first end of file. -/
theorem reading_stays_within_tokens (ts : List Token) (last : Token) (hlast : last.isEof = true)
    (made : Nat) :
    let tokens := ts ++ [last]
    let n := Parse.fuelFor tokens.length
    let program := Program.ofTokens tokens made
    let parsed := ParsedExpr.ofTokens tokens made
    (∃ h, Indexed.program n tokens { made := made } = .ok program.statements h ∧
      h.complaints = program.complaints ∧ h.made = program.made ∧
      h.current = tokens.findIdx Token.isEof ∧ h.Within tokens) ∧
    ∃ h, Indexed.parsedExpr n tokens { made := made } = .ok parsed.expr? h ∧
      h.complaints = parsed.complaints ∧ h.made = parsed.made ∧ h.Within tokens := by
  have hmem : last ∈ ts ++ [last] := List.mem_append_right ts (List.mem_singleton_self last)
  obtain ⟨tape, htape⟩ := Tape.exists_tokens ⟨last, hmem, hlast⟩
  rw [← htape]
  constructor
  · obtain ⟨d, hcomplaints, hid, hnil, h, heq, hs⟩ := Indexed.program_lands tape made
    refine ⟨h, heq, hs.complaints ▸ hcomplaints, hs.made ▸ hid, ?_, hs.within⟩
    rw [tape.findIdx_isEof, ← hs.length, hnil, List.length_nil, Nat.add_zero]
  · obtain ⟨d, hcomplaints, hid, h, heq, hs⟩ := Indexed.parsedExpr_lands tape made
    exact ⟨h, heq, hs.complaints ▸ hcomplaints, hs.made ▸ hid, hs.within⟩

/-- A function without a name, with an end of file in the middle of its body. -/
def brokenFunction : List Token :=
  tokensOf [.keyword .fun_, .symbol .leftParen, .symbol .leftBrace, .keyword .print, .symbol .plus,
    .eof, .symbol .rightBrace]

/-- There are two mistakes before the first end of file, and the brace after it is not looked at. -/
theorem broken_function_is_read_to_its_end_of_file :
    ∃ h, Indexed.program (Parse.fuelFor 8) (brokenFunction ++ [⟨.eof, "", 1⟩]) { made := 0 } =
        .ok [] h ∧
      h.complaints.length = 2 ∧ h.current = 5 ∧ h.Within (brokenFunction ++ [⟨.eof, "", 1⟩]) := by
  obtain ⟨h, hprogram, hcomplaints, -, hcurrent, hwithin⟩ :=
    (reading_stays_within_tokens brokenFunction ⟨.eof, "", 1⟩ rfl 0).1
  refine ⟨h, hprogram, ?_, hcurrent, hwithin⟩
  rw [hcomplaints]
  decide +kernel

end Lox
