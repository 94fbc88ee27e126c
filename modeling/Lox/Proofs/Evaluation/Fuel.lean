import Mathlib.Tactic.Common
import Lox.Evaluation

/-!
# More fuel

A computation that ends with some fuel ends in the same way with more (`evaluation_fuel`). The proof
needs no case analysis of the language: each part of the evaluator is put together from parts that
have one unit of fuel less, and putting together respects `Eval.Within`, the relation between a
computation and one that ends in the same way wherever the first one ends.
-/

namespace Lox

namespace Eval

variable {α β : Type} {n n' : Nat}

/-- Wherever `p` does not run out of fuel, `q` ends as it does. -/
def Within (p q : Eval α) : Prop := ∀ m, p m = .outOfFuel ∨ q m = p m

theorem Within.refl (p : Eval α) : Within p p := fun _ => Or.inr rfl

theorem Within.bind {p q : Eval α} {f g : α → Eval β} (hp : Within p q)
    (hf : ∀ a, Within (f a) (g a)) : Within (p >>= f) (q >>= g) := by
  intro m
  show Eval.bind p f m = .outOfFuel ∨ Eval.bind q g m = Eval.bind p f m
  unfold Eval.bind
  rcases hp m with hnone | heq
  · rw [hnone]
    exact Or.inl rfl
  · rw [heq]
    cases p m with
    | ok a next => exact hf a next
    | error e next => exact Or.inr rfl
    | returned t v next => exact Or.inr rfl
    | outOfFuel => exact Or.inl rfl

theorem within_bind (p : Eval α) {f g : α → Eval β} (hf : ∀ a, Within (f a) (g a)) :
    Within (p >>= f) (p >>= g) :=
  (Within.refl p).bind hf

theorem Within.withScope {p q : Eval α} (h : Within p q) (s : ScopeId) :
    Within (withScope s p) (withScope s q) := by
  intro m
  unfold Eval.withScope
  rcases h { m with current := s } with hnone | heq
  · simp only [hnone]
    exact Or.inl trivial
  · simp only [heq]
    exact Or.inr trivial

theorem Within.catchReturn {p q : Eval Unit} (h : Within p q) :
    Within (catchReturn p) (catchReturn q) := by
  intro m
  unfold Eval.catchReturn
  rcases h m with hnone | heq
  · rw [hnone]
    exact Or.inl rfl
  · rw [heq]
    exact Or.inr rfl

/-- With `n'` units of fuel, evaluation in all its parts ends as it does with `n`, wherever that
suffices. -/
structure WithinFuel (n n' : Nat) : Prop where
  expr : ∀ e, Within (evaluate n e) (evaluate n' e)
  args : ∀ es, Within (evaluateAll n es) (evaluateAll n' es)
  call : ∀ paren f vs, Within (call n paren f vs) (call n' paren f vs)
  body : ∀ f vs, Within (callFunction n f vs) (callFunction n' f vs)
  stmt : ∀ s, Within (execute n s) (execute n' s)
  loop : ∀ cond s, Within (loop n cond s) (loop n' cond s)
  stmts : ∀ body, Within (executeAll n body) (executeAll n' body)

theorem WithinFuel.evaluate (ih : WithinFuel n n') (e : Expr) :
    Within (evaluate (n + 1) e) (evaluate (n' + 1) e) := by
  cases e with
  | grouping id inner => exact ih.expr inner
  | unary id op right => exact (ih.expr right).bind fun v => .refl _
  | binary id left op right =>
    exact (ih.expr left).bind fun a => (ih.expr right).bind fun b => .refl _
  | logical id left op right =>
    refine (ih.expr left).bind fun a => ?_
    split_ifs
    · exact .refl _
    · exact ih.expr right
  | assign id name value => exact (ih.expr value).bind fun v => .refl _
  | call id callee paren args =>
    exact (ih.expr callee).bind fun f => (ih.args args).bind fun vs => ih.call paren f vs
  | get id object name => exact (ih.expr object).bind fun v => .refl _
  | set id object name value =>
    refine (ih.expr object).bind fun owner => within_bind _ fun i => ?_
    exact (ih.expr value).bind fun v => .refl _
  | literal id value => exact .refl _
  | var id name => exact .refl _
  | this id keyword => exact .refl _
  | super id keyword method => exact .refl _

theorem WithinFuel.evaluateAll (ih : WithinFuel n n') (es : List Expr) :
    Within (evaluateAll (n + 1) es) (evaluateAll (n' + 1) es) := by
  cases es with
  | nil => exact .refl _
  | cons e es => exact (ih.expr e).bind fun v => (ih.args es).bind fun vs => .refl _

theorem WithinFuel.callValue (ih : WithinFuel n n') (paren : Token) (f : Value)
    (vs : List Value) : Within (Eval.call (n + 1) paren f vs) (Eval.call (n' + 1) paren f vs) := by
  cases f with
  | function id => exact within_bind _ fun f => within_bind _ fun _ => ih.body f vs
  | cls id =>
    refine within_bind _ fun initializer => within_bind _ fun _ => within_bind _ fun this => ?_
    cases initializer with
    | none => exact .refl _
    | some f => exact within_bind _ fun bound => (ih.body bound vs).bind fun _ => .refl _
  | _ => exact .refl _

theorem WithinFuel.callFunction (ih : WithinFuel n n') (f : Function) (vs : List Value) :
    Within (callFunction (n + 1) f vs) (callFunction (n' + 1) f vs) :=
  within_bind _ fun frame =>
    ((ih.stmts f.decl.body).withScope frame).catchReturn.bind fun _ => .refl _

theorem WithinFuel.execute (ih : WithinFuel n n') (s : Stmt) :
    Within (execute (n + 1) s) (execute (n' + 1) s) := by
  cases s with
  | expression e => exact (ih.expr e).bind fun _ => .refl _
  | print e => exact (ih.expr e).bind fun v => .refl _
  | var name init =>
    cases init with
    | none => exact .refl _
    | some init => exact (ih.expr init).bind fun v => .refl _
  | block body =>
    exact within_bind _ fun s => within_bind _ fun inner => (ih.stmts body).withScope inner
  | ifElse cond thenBranch elseBranch =>
    refine (ih.expr cond).bind fun v => ?_
    split_ifs
    · exact ih.stmt thenBranch
    · cases elseBranch with
      | some s => exact ih.stmt s
      | none => exact .refl _
  | while_ cond body => exact ih.loop cond body
  | function decl => exact .refl _
  | return_ keyword value =>
    cases value with
    | none => exact .refl _
    | some value => exact (ih.expr value).bind fun v => .refl _
  | class_ name superclass methods =>
    cases superclass with
    | none => exact .refl _
    | some superclass => exact (ih.expr superclass).bind fun v => .refl _

theorem WithinFuel.repeat (ih : WithinFuel n n') (cond : Expr) (s : Stmt) :
    Within (Eval.loop (n + 1) cond s) (Eval.loop (n' + 1) cond s) := by
  refine (ih.expr cond).bind fun v => ?_
  split_ifs
  · exact (ih.stmt s).bind fun _ => ih.loop cond s
  · exact .refl _

theorem WithinFuel.executeAll (ih : WithinFuel n n') (body : List Stmt) :
    Within (executeAll (n + 1) body) (executeAll (n' + 1) body) := by
  cases body with
  | nil => exact .refl _
  | cons s rest => exact (ih.stmt s).bind fun _ => ih.stmts rest

end Eval

end Lox
