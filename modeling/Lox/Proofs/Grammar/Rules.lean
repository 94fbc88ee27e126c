import Lox.Proofs.Grammar.Derivation

/-!
# What the rules derive

The words of each rule, in terms of the words of its parts. The six levels of operators have rules
of one shape. The parts of a rule that are read by a reader of their own are phrases with a name
here. What comes after this module rarely needs the table of rules itself.
-/

namespace Lox

variable {u v w x : Word} {k : TokenKind}

/-! ### Levels of operators -/

namespace Level

/-- The rule for a level. -/
def rule : Level → Rule
  | or => .logicOr
  | and => .logicAnd
  | equality => .equality
  | comparison => .comparison
  | term => .term
  | factor => .factor

/-- The rule for the operands on a level. -/
def operandRule (l : Level) : Rule := (l.tighter?.map rule).getD .unary

def operators : Level → Phrase
  | or => .word .or
  | and => .word .and
  | equality => .any [.sym .bangEqual, .sym .equalEqual]
  | comparison => .any [.sym .greater, .sym .greaterEqual, .sym .less, .sym .lessEqual]
  | term => .any [.sym .minus, .sym .plus]
  | factor => .any [.sym .slash, .sym .star]

/-- An operator of a level and its right operand. -/
def step (l : Level) : Phrase := .all [l.operators, .rule l.operandRule]

/-- The number of tighter levels. -/
def depth : Level → Nat
  | or => 5
  | and => 4
  | equality => 3
  | comparison => 2
  | term => 1
  | factor => 0

theorem grammar_rule (l : Level) :
    grammar l.rule = .all [.rule l.operandRule, .many l.step] := by
  cases l <;> rfl

theorem of_tighter? {l l' : Level} (h : l.tighter? = some l') :
    l.operandRule = l'.rule ∧ l.depth = l'.depth + 1 := by
  cases l <;> cases h <;> exact ⟨rfl, rfl⟩

theorem eq_factor {l : Level} (h : l.tighter? = none) : l = factor := by
  cases l <;> first | rfl | cases h

/-- What holds of the tightest level, and of each level if of the next tighter one, holds of all. -/
theorem induct_tighter {P : Level → Prop} (hfactor : P factor)
    (hstep : ∀ l l', l.tighter? = some l' → P l' → P l) (l : Level) : P l := by
  have hterm := hstep term factor rfl hfactor
  have hcomparison := hstep comparison term rfl hterm
  have hequality := hstep equality comparison rfl hcomparison
  have hand := hstep and equality rfl hequality
  have hor := hstep or and rfl hand
  cases l <;> assumption

theorem derives_operators (l : Level) :
    Derives l.operators w ↔ ∃ k, w = [k] ∧ l.hasOperator k = true := by
  constructor
  · intro h
    cases l <;> simp only [operators, derives_any, derives_sym, derives_word, List.mem_cons,
      List.not_mem_nil, or_false, exists_eq_or_imp, exists_eq_left] at h <;> grind [hasOperator]
  · rintro ⟨k, rfl, hk⟩
    unfold hasOperator at hk
    split at hk <;> simp [operators, derives_any, derives_sym, derives_word] at hk ⊢

end Level

/-! ### Expressions -/

namespace Phrase

/-- What may follow what is called or accessed. -/
def suffix : Phrase :=
  any [all [sym .leftParen, opt (rule .arguments), sym .rightParen], all [sym .dot, ident]]

/-- What may stand before the equals sign of an assignment. -/
def target : Phrase := any [ident, all [rule .call, sym .dot, ident]]

end Phrase

/-- An expression that can be assigned to. -/
def Expr.isTarget : Expr → Bool
  | .var _ _ | .get _ _ _ => true
  | _ => false

theorem derives_operator_cons {a b : Phrase} {test : TokenKind → Bool}
    (ha : ∀ w, Derives a w ↔ ∃ k, w = [k] ∧ test k = true) :
    Derives (.all [a, b]) w ↔ ∃ k u, w = k :: u ∧ test k = true ∧ Derives b u := by
  rw [derives_all_cons]
  simp only [ha, derives_all_one]
  constructor
  · rintro ⟨_, u, rfl, ⟨k, rfl, hk⟩, hu⟩
    exact ⟨k, u, rfl, hk, hu⟩
  · rintro ⟨k, u, rfl, hk, hu⟩
    exact ⟨[k], u, rfl, ⟨k, rfl, hk⟩, hu⟩

theorem derives_step {l : Level} : Derives l.step w ↔
    ∃ k u, w = k :: u ∧ l.hasOperator k = true ∧ Derives (.rule l.operandRule) u :=
  derives_operator_cons fun _ => l.derives_operators

theorem derives_chain {l : Level} : Derives (.rule l.rule) w ↔
    ∃ u v, w = u ++ v ∧ Derives (.rule l.operandRule) u ∧ Derives (.many l.step) v := by
  rw [derives_rule, l.grammar_rule]
  simp

theorem derives_unaryOperator : Derives (.any [.sym .bang, .sym .minus]) w ↔
    ∃ k, w = [k] ∧ isUnaryOperator k = true := by
  constructor
  · intro h
    simp only [derives_any, List.mem_cons, List.not_mem_nil, or_false, exists_eq_or_imp,
      exists_eq_left, derives_sym] at h
    rcases h with rfl | rfl
    · exact ⟨_, rfl, rfl⟩
    · exact ⟨_, rfl, rfl⟩
  · rintro ⟨k, rfl, hk⟩
    unfold isUnaryOperator at hk
    split at hk <;> simp at hk ⊢

theorem derives_unary : Derives (.rule .unary) w ↔
    (∃ k u, w = k :: u ∧ isUnaryOperator k = true ∧ Derives (.rule .unary) u) ∨
      Derives (.rule .call) w := by
  rw [← derives_operator_cons fun _ => derives_unaryOperator, derives_rule, grammar, derives_any]
  simp only [List.mem_cons, List.not_mem_nil, or_false, exists_eq_or_imp, exists_eq_left]

theorem derives_call : Derives (.rule .call) w ↔
    ∃ u v, w = u ++ v ∧ Derives (.rule .primary) u ∧ Derives (.many .suffix) v := by
  rw [derives_rule, grammar]
  simp [Phrase.suffix]

theorem derives_call_snoc (hu : Derives (.rule .call) u) (hv : Derives .suffix v) :
    Derives (.rule .call) (u ++ v) := by
  obtain ⟨x, y, rfl, hx, hy⟩ := derives_call.mp hu
  exact derives_call.mpr ⟨x, y ++ v, List.append_assoc x y v, hx, hy.snoc hv⟩

theorem derives_suffix : Derives .suffix w ↔
    (∃ u, w = .symbol .leftParen :: (u ++ [.symbol .rightParen]) ∧
      Derives (.opt (.rule .arguments)) u) ∨ w = [.symbol .dot, .identifier] := by
  simp [Phrase.suffix]

theorem derives_target : Derives .target w ↔
    w = [.identifier] ∨ ∃ u, w = u ++ [.symbol .dot, .identifier] ∧ Derives (.rule .call) u := by
  simp [Phrase.target]

theorem derives_objectAndName :
    Derives (.all [.opt (.all [.rule .call, .sym .dot]), .ident]) w ↔ Derives .target w := by
  simp only [derives_target, derives_all_cons, derives_all_nil, derives_opt, derives_ident,
    derives_sym]
  constructor
  · rintro ⟨_, _, rfl, ⟨u, _, rfl, hu, _, _, rfl, rfl, rfl⟩ | rfl, _, _, rfl, rfl, rfl⟩
    · exact Or.inr ⟨u, by simp, hu⟩
    · exact Or.inl rfl
  · rintro (rfl | ⟨u, rfl, hu⟩)
    · exact ⟨[], _, rfl, Or.inr rfl, _, [], rfl, rfl, rfl⟩
    · exact ⟨u ++ [.symbol .dot], [.identifier], by simp,
        Or.inl ⟨u, _, rfl, hu, _, [], rfl, rfl, rfl⟩, _, [], rfl, rfl, rfl⟩

theorem derives_expression : Derives (.rule .expression) w ↔
    (∃ u v, w = u ++ .symbol .equal :: v ∧ Derives .target u ∧ Derives (.rule .expression) v) ∨
      Derives (.rule .logicOr) w := by
  have hexpression : ∀ w, Derives (.rule .expression) w ↔ Derives (.rule .assignment) w :=
    fun _ => derives_rule
  have hassign : Derives (.all ([.opt (.all [.rule .call, .sym .dot]), .ident] ++
      [.sym .equal, .rule .assignment])) w ↔
      ∃ u v, w = u ++ .symbol .equal :: v ∧ Derives .target u ∧ Derives (.rule .expression) v := by
    simp only [derives_all_append, derives_objectAndName, hexpression]
    simp
  rw [hexpression, derives_rule, ← hassign, grammar, derives_any]
  simp only [List.mem_cons, List.not_mem_nil, or_false, exists_eq_or_imp, exists_eq_left,
    List.cons_append, List.nil_append]

theorem isSome_literalOf? : (literalOf? k).isSome = true ↔
    (∃ n, k = .number n) ∨ (∃ s, k = .string s) ∨ k = .keyword .true ∨ k = .keyword .false ∨
      k = .keyword .nil := by
  constructor
  · intro hk
    unfold literalOf? at hk
    split at hk <;> simp at hk ⊢
  · rintro (⟨n, rfl⟩ | ⟨s, rfl⟩ | rfl | rfl | rfl) <;> rfl

theorem derives_primary : Derives (.rule .primary) w ↔
    (∃ k, w = [k] ∧ (literalOf? k).isSome = true) ∨ w = [.keyword .this] ∨ w = [.identifier] ∨
      (∃ u, w = .symbol .leftParen :: (u ++ [.symbol .rightParen]) ∧
        Derives (.rule .expression) u) ∨
      w = [.keyword .super, .symbol .dot, .identifier] := by
  have hliteral : (∃ k, w = [k] ∧ (literalOf? k).isSome = true) ↔
      (∃ n, w = [.number n]) ∨ (∃ s, w = [.string s]) ∨ w = [.keyword .true] ∨
        w = [.keyword .false] ∨ w = [.keyword .nil] := by
    simp only [isSome_literalOf?]
    constructor
    · rintro ⟨k, rfl, hk⟩
      simpa using hk
    · rintro (⟨n, rfl⟩ | ⟨s, rfl⟩ | rfl | rfl | rfl) <;> exact ⟨_, rfl, by simp⟩
  rw [derives_rule, grammar, hliteral]
  simp [derives_terminal, Terminal.Matches, or_assoc]

/-! ### Statements -/

namespace Phrase

/-- A variable declaration after its keyword. -/
def varTail : Phrase :=
  all [ident, opt (all [sym .equal, rule .expression]), sym .semicolon]

/-- The first clause of a `for` loop, with its semicolon. -/
def forInit : Phrase := any [rule .varDecl, rule .exprStmt, sym .semicolon]

/-- The clauses of a `for` loop between its parentheses. -/
def forClauses : Phrase :=
  all [sym .leftParen, forInit, opt (rule .expression), sym .semicolon, opt (rule .expression),
    sym .rightParen]

/-- A condition between parentheses. -/
def condition : Phrase := all [sym .leftParen, rule .expression, sym .rightParen]

/-- The declarations of a block and its closing brace. -/
def blockTail : Phrase := all [many (rule .declaration), sym .rightBrace]

/-- The name and the parameters of a function, up to the opening brace of its body. -/
def functionHead : Phrase :=
  all [ident, sym .leftParen, opt (rule .parameters), sym .rightParen, sym .leftBrace]

/-- A class after its keyword. -/
def classTail : Phrase :=
  all [ident, opt (all [sym .less, ident]), sym .leftBrace, many (rule .function),
    sym .rightBrace]

end Phrase

theorem derives_varTail : Derives .varTail w ↔
    ∃ i, w = .identifier :: (i ++ [.symbol .semicolon]) ∧
      ((∃ e, i = .symbol .equal :: e ∧ Derives (.rule .expression) e) ∨ i = []) := by
  simp [Phrase.varTail]

theorem derives_forInit : Derives .forInit w ↔
    Derives (.rule .varDecl) w ∨ Derives (.rule .exprStmt) w ∨ w = [.symbol .semicolon] := by
  simp [Phrase.forInit]

theorem derives_forClauses : Derives .forClauses w ↔
    ∃ x y z, w = .symbol .leftParen :: (x ++ (y ++ .symbol .semicolon ::
        (z ++ [.symbol .rightParen]))) ∧
      Derives .forInit x ∧ Derives (.opt (.rule .expression)) y ∧
      Derives (.opt (.rule .expression)) z := by
  simp [Phrase.forClauses]

theorem derives_condition : Derives .condition w ↔
    ∃ e, w = .symbol .leftParen :: (e ++ [.symbol .rightParen]) ∧
      Derives (.rule .expression) e := by
  simp [Phrase.condition]

theorem derives_blockTail : Derives .blockTail w ↔
    ∃ ds, w = ds ++ [.symbol .rightBrace] ∧ Derives (.many (.rule .declaration)) ds := by
  simp [Phrase.blockTail]

theorem derives_functionHead : Derives .functionHead w ↔
    ∃ p, w = .identifier :: .symbol .leftParen ::
        (p ++ [.symbol .rightParen, .symbol .leftBrace]) ∧
      Derives (.opt (.rule .parameters)) p := by
  simp [Phrase.functionHead]

theorem derives_classTail : Derives .classTail w ↔
    ∃ s m, w = .identifier :: (s ++ .symbol .leftBrace :: (m ++ [.symbol .rightBrace])) ∧
      (s = [.symbol .less, .identifier] ∨ s = []) ∧ Derives (.many (.rule .function)) m := by
  simp [Phrase.classTail]

theorem derives_declaration : Derives (.rule .declaration) w ↔
    Derives (.rule .classDecl) w ∨ Derives (.rule .funDecl) w ∨ Derives (.rule .varDecl) w ∨
      Derives (.rule .statement) w := by
  rw [derives_rule, grammar]
  simp

theorem derives_classDecl : Derives (.rule .classDecl) w ↔
    ∃ u, w = .keyword .class_ :: u ∧ Derives .classTail u :=
  derives_rule.trans derives_word_cons

theorem derives_funDecl : Derives (.rule .funDecl) w ↔
    ∃ u, w = .keyword .fun_ :: u ∧ Derives (.rule .function) u := by
  rw [derives_rule, grammar]
  simp

theorem derives_block : Derives (.rule .block) w ↔
    ∃ u, w = .symbol .leftBrace :: u ∧ Derives .blockTail u :=
  derives_rule.trans derives_sym_cons

theorem derives_function : Derives (.rule .function) w ↔
    ∃ u v, w = u ++ v ∧ Derives .functionHead u ∧ Derives .blockTail v := by
  have hparts : Derives (.rule .function) w ↔
      ∃ p b, w = .identifier :: .symbol .leftParen :: (p ++ .symbol .rightParen :: b) ∧
        Derives (.opt (.rule .parameters)) p ∧ Derives (.rule .block) b := by
    rw [derives_rule, grammar]
    simp
  simp only [hparts, derives_block, derives_functionHead]
  constructor
  · rintro ⟨p, _, rfl, hp, b, rfl, hb⟩
    exact ⟨_, b, by simp, ⟨p, rfl, hp⟩, hb⟩
  · rintro ⟨_, b, rfl, ⟨p, rfl, hp⟩, hb⟩
    exact ⟨p, _, by simp, hp, b, rfl, hb⟩

theorem derives_varDecl : Derives (.rule .varDecl) w ↔
    ∃ u, w = .keyword .var :: u ∧ Derives .varTail u :=
  derives_rule.trans derives_word_cons

theorem derives_statement : Derives (.rule .statement) w ↔
    Derives (.rule .exprStmt) w ∨ Derives (.rule .forStmt) w ∨ Derives (.rule .ifStmt) w ∨
      Derives (.rule .printStmt) w ∨ Derives (.rule .returnStmt) w ∨
      Derives (.rule .whileStmt) w ∨ Derives (.rule .block) w := by
  rw [derives_rule, grammar]
  simp

theorem derives_exprStmt : Derives (.rule .exprStmt) w ↔
    ∃ e, w = e ++ [.symbol .semicolon] ∧ Derives (.rule .expression) e := by
  rw [derives_rule, grammar]
  simp

theorem derives_forStmt : Derives (.rule .forStmt) w ↔
    ∃ u v, w = .keyword .for_ :: (u ++ v) ∧ Derives .forClauses u ∧
      Derives (.rule .statement) v := by
  simp only [← derives_all_one (a := .rule .statement)]
  exact derives_rule.trans (derives_word_append [.sym .leftParen, .forInit,
    .opt (.rule .expression), .sym .semicolon, .opt (.rule .expression), .sym .rightParen]
    [.rule .statement])

theorem derives_ifStmt : Derives (.rule .ifStmt) w ↔
    ∃ u v x, w = .keyword .if_ :: (u ++ (v ++ x)) ∧ Derives .condition u ∧
      Derives (.rule .statement) v ∧
      ((∃ y, x = .keyword .else_ :: y ∧ Derives (.rule .statement) y) ∨ x = []) := by
  refine (derives_rule (r := .ifStmt)).trans ((derives_word_append
    [.sym .leftParen, .rule .expression, .sym .rightParen]
    [.rule .statement, .opt (.all [.word .else_, .rule .statement])]).trans ?_)
  constructor
  · rintro ⟨u, _, rfl, hu, hbranches⟩
    obtain ⟨v, x, rfl, hv, hx⟩ := derives_all_cons.mp hbranches
    exact ⟨u, v, x, rfl, hu, hv, by simpa using hx⟩
  · rintro ⟨u, v, x, rfl, hu, hv, hx⟩
    exact ⟨u, v ++ x, rfl, hu, derives_all_cons.mpr ⟨v, x, rfl, hv, by simpa using hx⟩⟩

theorem derives_printStmt : Derives (.rule .printStmt) w ↔
    ∃ e, w = .keyword .print :: (e ++ [.symbol .semicolon]) ∧ Derives (.rule .expression) e := by
  rw [derives_rule, grammar]
  simp

theorem derives_returnStmt : Derives (.rule .returnStmt) w ↔
    ∃ e, w = .keyword .return_ :: (e ++ [.symbol .semicolon]) ∧
      Derives (.opt (.rule .expression)) e := by
  rw [derives_rule, grammar]
  simp

theorem derives_whileStmt : Derives (.rule .whileStmt) w ↔
    ∃ u v, w = .keyword .while_ :: (u ++ v) ∧ Derives .condition u ∧
      Derives (.rule .statement) v := by
  simp only [← derives_all_one (a := .rule .statement)]
  exact derives_rule.trans (derives_word_append
    [.sym .leftParen, .rule .expression, .sym .rightParen] [.rule .statement])

/-! ### Nesting of conditionals

An `else` may belong to any `if` before it that has none yet, so the words of a statement can have
several derivations. In one of them each `else` belongs to the nearest `if`. -/

/-- A word derived as a statement with each `else` given to the nearest `if`. The flag says that the
statement ends with an `if` that could still take an `else`. -/
inductive Nested : Bool → Word → Prop where
  | plain {w : Word}
    (h : Derives (.rule .exprStmt) w ∨ Derives (.rule .printStmt) w ∨
      Derives (.rule .returnStmt) w ∨ Derives (.rule .block) w) : Nested false w
  | forLoop {b : Bool} {u v : Word} (hu : Derives .forClauses u) (hv : Nested b v) :
    Nested b (.keyword .for_ :: (u ++ v))
  | whileLoop {b : Bool} {u v : Word} (hu : Derives .condition u) (hv : Nested b v) :
    Nested b (.keyword .while_ :: (u ++ v))
  | ifThen {b : Bool} {u v : Word} (hu : Derives .condition u) (hv : Nested b v) :
    Nested true (.keyword .if_ :: (u ++ v))
  | ifElse {b : Bool} {u v x : Word} (hu : Derives .condition u) (hv : Nested false v)
    (hx : Nested b x) : Nested b (.keyword .if_ :: (u ++ (v ++ .keyword .else_ :: x)))

/-- An `else` after a statement that can take it goes to the innermost `if` without one. -/
theorem Nested.attach {b : Bool} (hv : Nested true v) (hx : Nested b x) :
    ∃ b', Nested b' (v ++ .keyword .else_ :: x) := by
  generalize hopen : true = o at hv
  induction hv with
  | plain h => cases hopen
  | forLoop hu _ ih =>
    obtain ⟨b', h⟩ := ih hopen
    exact ⟨b', by simpa using Nested.forLoop hu h⟩
  | whileLoop hu _ ih =>
    obtain ⟨b', h⟩ := ih hopen
    exact ⟨b', by simpa using Nested.whileLoop hu h⟩
  | @ifThen c u v hu hv ih =>
    cases c with
    | false => exact ⟨b, by simpa using Nested.ifElse hu hv hx⟩
    | true =>
      obtain ⟨b', h⟩ := ih rfl
      exact ⟨true, by simpa using Nested.ifThen hu h⟩
  | ifElse hu hv _ _ ih =>
    obtain ⟨b', h⟩ := ih hopen
    exact ⟨b', by simpa using Nested.ifElse hu hv h⟩

theorem statement_nested (h : Derives (.rule .statement) w) : ∃ b, Nested b w := by
  induction hlength : w.length using Nat.strongRecOn generalizing w with
  | ind length ih =>
    subst hlength
    rcases derives_statement.mp h with h | h | h | h | h | h | h
    · exact ⟨false, .plain (Or.inl h)⟩
    · obtain ⟨u, v, rfl, hu, hv⟩ := derives_forStmt.mp h
      obtain ⟨b, hb⟩ :=
        ih v.length (by simp only [List.length_cons, List.length_append]; omega) hv rfl
      exact ⟨b, .forLoop hu hb⟩
    · obtain ⟨u, v, x, rfl, hu, hv, hx⟩ := derives_ifStmt.mp h
      obtain ⟨b, hb⟩ :=
        ih v.length (by simp only [List.length_cons, List.length_append]; omega) hv rfl
      rcases hx with ⟨y, rfl, hy⟩ | rfl
      · obtain ⟨b', hb'⟩ :=
          ih y.length (by simp only [List.length_cons, List.length_append]; omega) hy rfl
        cases b with
        | false => exact ⟨b', .ifElse hu hb hb'⟩
        | true =>
          obtain ⟨b'', h⟩ := hb.attach hb'
          exact ⟨true, .ifThen hu h⟩
      · rw [List.append_nil]
        exact ⟨true, .ifThen hu hb⟩
    · exact ⟨false, .plain (Or.inr (Or.inl h))⟩
    · exact ⟨false, .plain (Or.inr (Or.inr (Or.inl h)))⟩
    · obtain ⟨u, v, rfl, hu, hv⟩ := derives_whileStmt.mp h
      obtain ⟨b, hb⟩ :=
        ih v.length (by simp only [List.length_cons, List.length_append]; omega) hv rfl
      exact ⟨b, .whileLoop hu hb⟩
    · exact ⟨false, .plain (Or.inr (Or.inr (Or.inr h)))⟩

end Lox
