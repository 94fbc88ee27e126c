import Lox.Proofs.Mirror.Machines

/-!
# Mirrored runs

Mirrored code, started on mirrored machines with the same fuel, runs in step: it ends alike, or runs
out of fuel on both sides. The proof is by induction on the fuel, for all parts of the evaluator at
once, with one case for each form of code.
-/

namespace Lox

namespace Eval

variable {μ : Mirror} {n : Nat}

/-- With this fuel, mirrored code runs in step. -/
structure MirroredRuns (μ : Mirror) (n : Nat) : Prop where
  expr : ∀ {e e'}, e.Mirrored μ e' → Mirrored μ Eq (evaluate n e) (evaluate n e')
  args : ∀ {es es'}, MirroredArgs μ es es' → Mirrored μ Eq (evaluateAll n es) (evaluateAll n es')
  call : ∀ {t t'}, μ.token t t' → ∀ f vs, Mirrored μ Eq (call n t f vs) (call n t' f vs)
  body : ∀ {f f'}, f.Mirrored μ f' → ∀ vs,
    Mirrored μ Eq (callFunction n f vs) (callFunction n f' vs)
  stmt : ∀ {s s'}, s.Mirrored μ s' → Mirrored μ Eq (execute n s) (execute n s')
  loop : ∀ {cond cond' s s'}, cond.Mirrored μ cond' → s.Mirrored μ s' →
    Mirrored μ Eq (loop n cond s) (loop n cond' s')
  stmts : ∀ {body body'}, MirroredAll μ body body' →
    Mirrored μ Eq (executeAll n body) (executeAll n body')

theorem MirroredRuns.evaluate (ih : MirroredRuns μ n) {e e' : Expr} (he : e.Mirrored μ e') :
    Mirrored μ Eq (evaluate (n + 1) e) (evaluate (n + 1) e') := by
  cases he with
  | literal hid value => exact mirrored_pure rfl
  | grouping hid h => exact ih.expr h
  | unary hid hop h =>
    refine (ih.expr h).andThen fun v => ?_
    rw [applyUnary_mirrored hop]
    exact mirrored_ofExcept hop _
  | binary hid hleft hop hright =>
    refine (ih.expr hleft).andThen fun a => (ih.expr hright).andThen fun b => ?_
    rw [applyBinary_mirrored hop]
    exact mirrored_ofExcept hop _
  | logical hid hleft hop hright =>
    refine (ih.expr hleft).andThen fun a => ?_
    rw [decidesAlone_mirrored hop]
    split_ifs
    · exact mirrored_pure rfl
    · exact ih.expr hright
  | var hid hname => exact mirrored_readVariable hid hname
  | assign hid hname hvalue =>
    refine (ih.expr hvalue).andThen fun v => ?_
    exact (mirrored_writeVariable hid hname v).andThen fun _ => mirrored_pure rfl
  | call hid hcallee hparen hargs =>
    refine (ih.expr hcallee).andThen fun f => (ih.args hargs).andThen fun vs => ?_
    exact ih.call hparen f vs
  | get hid hobject hname =>
    exact (ih.expr hobject).andThen fun v => mirrored_getProperty v hname
  | set hid hobject hname hvalue =>
    refine (ih.expr hobject).andThen fun owner => ?_
    refine (mirrored_fieldOwner owner hname).andThen fun i => ?_
    refine (ih.expr hvalue).andThen fun v => ?_
    exact (mirrored_setField i (μ.lexeme hname) v).andThen fun _ => mirrored_pure rfl
  | this hid hkeyword => exact mirrored_readVariable hid hkeyword
  | super hid hkeyword hmethod => exact mirrored_superMethod hid hkeyword hmethod

theorem MirroredRuns.evaluateAll (ih : MirroredRuns μ n) {es es' : List Expr}
    (hes : MirroredArgs μ es es') :
    Mirrored μ Eq (evaluateAll (n + 1) es) (evaluateAll (n + 1) es') := by
  cases hes with
  | nil => exact mirrored_pure rfl
  | cons he hes =>
    exact (ih.expr he).andThen fun v => (ih.args hes).andThen fun vs => mirrored_pure rfl

theorem MirroredRuns.callFunction (ih : MirroredRuns μ n) {f f' : Function} (hf : f.Mirrored μ f')
    (vs : List Value) : Mirrored μ Eq (callFunction (n + 1) f vs) (callFunction (n + 1) f' vs) := by
  have hbound := fun hinit => mirrored_boundInstance hf hinit
  -- An unknown function has no parameters and an empty body.
  obtain ⟨hparams, hbody⟩ : List.Forall₂ μ.token f.decl.params f'.decl.params ∧
      MirroredAll μ f.decl.body f'.decl.body := by
    cases hf with
    | mk h =>
      cases h with
      | mk hname hparams hbody => exact ⟨hparams, hbody⟩
    | unknown => exact ⟨.nil, .nil⟩
  have hsame : f'.closure = f.closure ∧ f'.isInitializer = f.isInitializer := by
    cases hf with
    | mk => exact ⟨rfl, rfl⟩
    | unknown => exact ⟨rfl, rfl⟩
  rw [Eval.callFunction, Eval.callFunction, hsame.1, hsame.2, bindArguments_mirrored hparams]
  refine (mirrored_newScope _ _).andThen fun frame => ?_
  refine Mirrored.andThen ((ih.stmts hbody).withScope frame).catchReturn fun result => ?_
  split_ifs with hinit
  · exact hbound hinit
  · exact mirrored_pure rfl

theorem MirroredRuns.callValue (ih : MirroredRuns μ n) {t t' : Token} (ht : μ.token t t')
    (f : Value) (vs : List Value) :
    Mirrored μ Eq (Eval.call (n + 1) t f vs) (Eval.call (n + 1) t' f vs) := by
  cases f with
  | native f =>
    exact (mirrored_checkArity ht _ _).andThen fun _ => mirrored_callNative ht f
  | function id =>
    refine (mirrored_inspect fun h h' hh => hh.functions id).bind fun f f' hf => ?_
    rw [hf.arity]
    exact (mirrored_checkArity ht _ _).andThen fun _ => ih.body hf vs
  | cls id =>
    refine (mirrored_inspect fun h h' hh => hh.findMethod? id FunDecl.initializerName).bind
      fun f f' hf => ?_
    cases hf with
    | none =>
      refine (mirrored_checkArity ht _ _).andThen fun _ => ?_
      exact (mirrored_newInstance id).andThen fun this => mirrored_pure rfl
    | some hf =>
      rw [Option.map_some, Option.map_some, hf.arity]
      refine (mirrored_checkArity ht _ _).andThen fun _ => ?_
      refine (mirrored_newInstance id).andThen fun this => ?_
      refine (mirrored_bindThis hf this).bind fun bound bound' hbound => ?_
      exact (ih.body hbound vs).andThen fun _ => mirrored_pure rfl
  | _ => exact mirrored_fault ht _

theorem MirroredRuns.execute (ih : MirroredRuns μ n) {s s' : Stmt} (hs : s.Mirrored μ s') :
    Mirrored μ Eq (execute (n + 1) s) (execute (n + 1) s') := by
  cases hs with
  | expression h => exact (ih.expr h).andThen fun _ => mirrored_pure rfl
  | print h => exact (ih.expr h).andThen fun v => mirrored_print v
  | var hname hinit =>
    cases hinit with
    | none => exact mirrored_define (μ.lexeme hname) .nil
    | some h => exact (ih.expr h).andThen fun v => mirrored_define (μ.lexeme hname) v
  | block h =>
    refine mirrored_currentScope.andThen fun s => (mirrored_newScope s _).andThen fun inner => ?_
    exact (ih.stmts h).withScope inner
  | ifThen hcond hthen =>
    refine (ih.expr hcond).andThen fun v => ?_
    split_ifs
    · exact ih.stmt hthen
    · exact mirrored_pure rfl
  | ifElse hcond hthen helse =>
    refine (ih.expr hcond).andThen fun v => ?_
    split_ifs
    · exact ih.stmt hthen
    · exact ih.stmt helse
  | while_ hcond hbody => exact ih.loop hcond hbody
  | function h =>
    refine mirrored_currentScope.andThen fun s => ?_
    refine (mirrored_newFunction (.mk h s false)).andThen fun f => ?_
    exact mirrored_define (μ.lexeme h.name) f
  | return_ hkeyword hvalue =>
    cases hvalue with
    | none => exact mirrored_leave hkeyword .nil
    | some h => exact (ih.expr h).andThen fun v => mirrored_leave hkeyword v
  | class_ hname hsuper hmethods =>
    cases hsuper with
    | none => exact mirrored_defineClass hname none hmethods
    | some h =>
      refine (ih.expr h).andThen fun v => ?_
      refine (mirrored_asSuperclass (superclassToken_mirrored hname h) v).andThen fun parent => ?_
      exact mirrored_defineClass hname (some parent) hmethods

theorem MirroredRuns.repeat (ih : MirroredRuns μ n) {cond cond' : Expr} {s s' : Stmt}
    (hcond : cond.Mirrored μ cond') (hs : s.Mirrored μ s') :
    Mirrored μ Eq (Eval.loop (n + 1) cond s) (Eval.loop (n + 1) cond' s') := by
  refine (ih.expr hcond).andThen fun v => ?_
  split_ifs
  · exact (ih.stmt hs).andThen fun _ => ih.loop hcond hs
  · exact mirrored_pure rfl

theorem MirroredRuns.executeAll (ih : MirroredRuns μ n) {body body' : List Stmt}
    (h : MirroredAll μ body body') :
    Mirrored μ Eq (executeAll (n + 1) body) (executeAll (n + 1) body') := by
  cases h with
  | nil => exact mirrored_pure rfl
  | cons hs hrest => exact (ih.stmt hs).andThen fun _ => ih.stmts hrest

/-- Mirrored code runs in step, with any fuel. -/
theorem mirroredRuns (μ : Mirror) (n : Nat) : MirroredRuns μ n := by
  induction n with
  | zero =>
    exact ⟨fun _ => mirrored_outOfFuel, fun _ => mirrored_outOfFuel,
      fun _ _ _ => mirrored_outOfFuel, fun _ _ => mirrored_outOfFuel, fun _ => mirrored_outOfFuel,
      fun _ _ => mirrored_outOfFuel, fun _ => mirrored_outOfFuel⟩
  | succ n ih =>
    exact ⟨ih.evaluate, ih.evaluateAll, ih.callValue, ih.callFunction, ih.execute, ih.repeat,
      ih.executeAll⟩

end Eval

end Lox
