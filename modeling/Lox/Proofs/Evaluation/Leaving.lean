import Lox.Proofs.Evaluation.Preservation
import Lox.Proofs.Scoping.Uses
import Lox.Session

/-!
# Where a `return` starts

A statement that is left by a `return` has executed one of the `return` statements that are parts of
it (`Stmt.parts`). Expressions and calls have no such parts, so no `return` leaves them. Nothing is
assumed of the tree, of the machine or of the recorded distances. A program has no such parts
either, if the static walk has found no violation in it (`Eval.executeAll_ne_returned`).
-/

namespace Lox

variable {α : Type} {m : Machine}

theorem Rules.ready_anything (t : Task) (m : Machine) :
    Rules.anything.invariant.Ready t [] [] m :=
  ⟨trivial, trivial, fun _ _ => trivial⟩

/-- A task that is left by a `return` has it among its parts. -/
theorem Invariant.Keeps.isReturnOf {I : Invariant} {t : Task} {past xs : List Moment}
    {gives : α → List Fact} {o : Outcome α} (h : I.Keeps t past m gives xs o) {keyword : Token}
    {v : Value} {next : Machine} (ho : o = .returned keyword v next) :
    IsReturnOf t.parts keyword := by
  subst ho
  exact h.ends.2.1

namespace Eval

theorem evaluate_ne_returned (n : Nat) (e : Expr) (m : Machine) (keyword : Token) (v : Value)
    (next : Machine) : evaluate n e m ≠ .returned keyword v next := fun h =>
  not_isReturnOf_nil keyword <|
    ((Invariant.evaluation_keeps _ n).expr e (Rules.ready_anything _ m)).isReturnOf h

theorem call_ne_returned (n : Nat) (paren : Token) (f : Value) (vs : List Value) (m : Machine)
    (keyword : Token) (v : Value) (next : Machine) :
    call n paren f vs m ≠ .returned keyword v next := fun h =>
  not_isReturnOf_nil keyword <|
    ((Invariant.evaluation_keeps _ n).call paren f vs (Rules.ready_anything _ m)
      (fun _ _ => trivial) fun _ _ => trivial).isReturnOf h

theorem execute_isReturnOf {n : Nat} {s : Stmt} {keyword : Token} {v : Value} {next : Machine}
    (h : execute n s m = .returned keyword v next) : IsReturnOf s.parts keyword :=
  ((Invariant.evaluation_keeps _ n).stmt s (Rules.ready_anything _ m)).isReturnOf h

theorem executeAll_isReturnOf {n : Nat} {body : List Stmt} {keyword : Token} {v : Value}
    {next : Machine} (h : executeAll n body m = .returned keyword v next) :
    IsReturnOf (partsOfAll body) keyword :=
  ((Invariant.evaluation_keeps _ n).stmts body (Rules.ready_anything _ m)).isReturnOf h

end Eval

/-! ### Programs -/

theorem clean_returnFindings {ctx : Context} {scopes : StaticScopes} {keyword : Token}
    {value : Option Expr} (h : Clean (returnFindings ctx scopes keyword value)) :
    ctx.function ≠ .none := by
  rw [returnFindings, clean_append, clean_append, clean_violationIf] at h
  exact of_decide_eq_false h.1.1

mutual

theorem Stmt.not_isReturnOf {ctx : Context} (hctx : ctx.function = .none) {keyword : Token}
    (scopes : StaticScopes) : ∀ s : Stmt,
    Clean (s.resolve ctx scopes).1 → ¬IsReturnOf s.parts keyword
  | .expression _, _, h | .print _, _, h | .var _ _, _, h | .function _, _, h => by
    obtain ⟨value, hmem⟩ := h
    cases List.mem_singleton.mp hmem
  | .class_ _ _ _, _, h => by
    obtain ⟨value, hmem⟩ := h
    cases List.mem_singleton.mp hmem
  | .return_ _ _, hclean, _ => clean_returnFindings hclean hctx
  | .block body, hclean, h => by
    obtain ⟨value, hmem⟩ := h
    rw [Stmt.parts, List.mem_cons] at hmem
    exact not_isReturnOf_partsOfAll hctx _ body hclean
      ⟨value, hmem.resolve_left Stmt.noConfusion⟩
  | .ifElse cond thenBranch none, hclean, h => by
    obtain ⟨value, hmem⟩ := h
    rw [Stmt.parts, List.mem_cons] at hmem
    exact thenBranch.not_isReturnOf hctx scopes (clean_append.mp hclean).2
      ⟨value, hmem.resolve_left Stmt.noConfusion⟩
  | .ifElse cond thenBranch (some elseBranch), hclean, h => by
    obtain ⟨value, hmem⟩ := h
    rw [Stmt.parts, List.mem_cons] at hmem
    obtain ⟨hthen, helse⟩ := clean_append.mp hclean
    rcases List.mem_append.mp (hmem.resolve_left Stmt.noConfusion) with hmem | hmem
    · exact thenBranch.not_isReturnOf hctx scopes (clean_append.mp hthen).2 ⟨value, hmem⟩
    · exact elseBranch.not_isReturnOf hctx _ helse ⟨value, hmem⟩
  | .while_ cond body, hclean, h => by
    obtain ⟨value, hmem⟩ := h
    rw [Stmt.parts, List.mem_cons] at hmem
    exact body.not_isReturnOf hctx scopes (clean_append.mp hclean).2
      ⟨value, hmem.resolve_left Stmt.noConfusion⟩
termination_by structural s => s

theorem not_isReturnOf_partsOfAll {ctx : Context} (hctx : ctx.function = .none) {keyword : Token}
    (scopes : StaticScopes) : ∀ body : List Stmt,
    Clean (resolveAll ctx scopes body).1 → ¬IsReturnOf (partsOfAll body) keyword
  | [], _, h => not_isReturnOf_nil keyword h
  | s :: rest, hclean, h => by
    have hsplit : Clean ((s.resolve ctx scopes).1 ++
      (resolveAll ctx (s.resolve ctx scopes).2 rest).1) := hclean
    rw [clean_append] at hsplit
    obtain ⟨value, hmem⟩ := h
    rcases List.mem_append.mp hmem with hmem | hmem
    · exact s.not_isReturnOf hctx scopes hsplit.1 ⟨value, hmem⟩
    · exact not_isReturnOf_partsOfAll hctx _ rest hsplit.2 ⟨value, hmem⟩
termination_by structural body => body

end

namespace Eval

theorem executeAll_ne_returned {n : Nat} {body : List Stmt} (hclean : Clean (programFindings body))
    (m : Machine) (keyword : Token) (v : Value) (next : Machine) :
    executeAll n body m ≠ .returned keyword v next := fun h =>
  not_isReturnOf_partsOfAll rfl [] body hclean (executeAll_isReturnOf h)

theorem evaluate_cases (n : Nat) (e : Expr) (m : Machine) :
    evaluate n e m = .outOfFuel ∨ (∃ v next, evaluate n e m = .ok v next) ∨
      ∃ error next, evaluate n e m = .error error next := by
  cases h : evaluate n e m with
  | ok v next => exact .inr (.inl ⟨v, next, rfl⟩)
  | error error next => exact .inr (.inr ⟨error, next, rfl⟩)
  | returned keyword v next => exact absurd h (evaluate_ne_returned n e m keyword v next)
  | outOfFuel => exact .inl rfl

end Eval

theorem Session.evaluate_value {fuel : Nat} {s next : Session} {source : String} {a : Answer}
    {v : Value} (h : s.evaluate fuel source = some (a, next)) (hv : a.value = some v) :
    ∃ e, (ParsedExpr.ofTokens (tokens source) s.made).expr? = some e ∧
      Eval.evaluate fuel e (s.machine.resolved (expressionFindings e)) = .ok v next.machine := by
  unfold Session.evaluate at h
  dsimp only at h
  split at h
  · rename_i e hparsed _
    refine ⟨e, hparsed, ?_⟩
    split_ifs at h
    · obtain ⟨rfl, -⟩ := Prod.mk.inj (Option.some.inj h)
      cases hv
    · obtain hend | ⟨w, final, hend⟩ | ⟨error, final, hend⟩ := Eval.evaluate_cases fuel e
        (s.machine.resolved (expressionFindings e))
      · simp [hend] at h
      · simp only [hend, Option.some.injEq, Prod.mk.injEq] at h
        obtain ⟨rfl, rfl⟩ := h
        cases hv
        exact hend
      · simp only [hend, Option.some.injEq, Prod.mk.injEq] at h
        obtain ⟨rfl, -⟩ := h
        cases hv
  · obtain ⟨rfl, -⟩ := Prod.mk.inj (Option.some.inj h)
    cases hv

/-- A `return` never leaves an expression. With any tree and any machine, recorded distances
included, an evaluation that ends does so with a value or a runtime error. A statement that is left
by a `return` has a `return` statement with that keyword among its parts, the bodies of functions
and methods not counted. So a session that answers with a value has got it as the value of the
expression, never through a `return`. -/
theorem returns_never_leave_expressions :
    (∀ (n : Nat) (e : Expr) (m : Machine),
      Eval.evaluate n e m = .outOfFuel ∨ (∃ v next, Eval.evaluate n e m = .ok v next) ∨
        ∃ error next, Eval.evaluate n e m = .error error next) ∧
    (∀ (n : Nat) (s : Stmt) (m : Machine) (keyword : Token) (v : Value) (next : Machine),
      Eval.execute n s m = .returned keyword v next →
        ∃ value, Stmt.return_ keyword value ∈ s.parts) ∧
    ∀ (fuel : Nat) (s next : Session) (source : String) (a : Answer) (v : Value),
      s.evaluate fuel source = some (a, next) → a.value = some v →
        ∃ e, (ParsedExpr.ofTokens (tokens source) s.made).expr? = some e ∧
          Eval.evaluate fuel e (s.machine.resolved (expressionFindings e)) =
            .ok v next.machine :=
  ⟨Eval.evaluate_cases, fun _ _ _ _ _ _ => Eval.execute_isReturnOf,
    fun _ _ _ _ _ _ => Session.evaluate_value⟩

/-- The `return` of a loop in a block leaves the block, and the one of a function declared in the
loop does not count. -/
theorem loop_is_left_by_its_own_return :
    let inner : Token := ⟨.keyword .return_, "return", 1⟩
    let outer : Token := ⟨.keyword .return_, "return", 2⟩
    let body : Stmt := .block [.function (.mk ⟨.identifier, "f", 1⟩ [] [.return_ inner none]),
      .return_ outer none]
    let s : Stmt := .block [.while_ (.literal 0 (.bool true)) body]
    let m := Machine.new (Clock.readingsFrom 0) false
    (∃ next, Eval.execute 20 s m = .returned outer .nil next) ∧
      (∃ value, Stmt.return_ outer value ∈ s.parts) ∧ s.parts.length = 5 := by
  intro inner outer body s m
  have hrun : ∃ next, Eval.execute 20 s m = .returned outer .nil next := ⟨_, rfl⟩
  obtain ⟨next, hnext⟩ := hrun
  exact ⟨⟨next, hnext⟩, returns_never_leave_expressions.2.1 20 s m outer .nil next hnext, rfl⟩

end Lox
