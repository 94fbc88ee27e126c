import Lox.Proofs.Renaming.Lockstep

/-!
# Runs in lockstep

Evaluation of code and of renamed code goes on in lockstep, wherever the scopes of the machine are
marked like the scopes around the code. The proof is by induction on the fuel, for all tasks of the
evaluator at once.
-/

namespace Lox

variable {ρ : Exchange} {T : Marking} {m m' : Machine} {marks : Marks} {n : Nat}

/-- With this fuel, every task and the renamed task end alike. -/
structure Simulates (ρ : Exchange) (n : Nat) : Prop where
  expr : ∀ {T m m' marks e e'}, m.Renamed ρ T m' → Along T m.heap m.current marks →
    e.Renamed ρ marks e' →
    Lockstep ρ T m sameResult (Eval.evaluate n e m) (Eval.evaluate n e' m')
  args : ∀ {T m m' marks es es'}, m.Renamed ρ T m' → Along T m.heap m.current marks →
    RenamedArgs ρ marks es es' →
    Lockstep ρ T m sameResult (Eval.evaluateAll n es m) (Eval.evaluateAll n es' m')
  call : ∀ {T m m'} (paren f vs), m.Renamed ρ T m' →
    Lockstep ρ T m sameResult (Eval.call n paren f vs m) (Eval.call n paren f vs m')
  body : ∀ {T m m' f f'} (vs), m.Renamed ρ T m' → f.Renamed ρ T m.heap [] f' →
    Lockstep ρ T m sameResult (Eval.callFunction n f vs m) (Eval.callFunction n f' vs m')
  stmt : ∀ {T m m' marks s s'}, m.Renamed ρ T m' → Along T m.heap m.current marks →
    s.Renamed ρ marks s' →
    Lockstep ρ T m sameResult (Eval.execute n s m) (Eval.execute n s' m')
  loop : ∀ {T m m' marks cond cond' s s'}, m.Renamed ρ T m' → Along T m.heap m.current marks →
    cond.Renamed ρ marks cond' → s.Renamed ρ marks s' →
    Lockstep ρ T m sameResult (Eval.loop n cond s m) (Eval.loop n cond' s' m')
  stmts : ∀ {T m m' marks body body'}, m.Renamed ρ T m' → Along T m.heap m.current marks →
    RenamedAll ρ marks body body' →
    Lockstep ρ T m sameResult (Eval.executeAll n body m) (Eval.executeAll n body' m')

theorem Simulates.evaluate (hρ : ρ.Proper) (ih : Simulates ρ n) {e e' : Expr}
    (hr : m.Renamed ρ T m') (ha : Along T m.heap m.current marks) (he : e.Renamed ρ marks e') :
    Lockstep ρ T m sameResult (Eval.evaluate (n + 1) e m) (Eval.evaluate (n + 1) e' m') := by
  cases he with
  | literal id value => exact lockstep_pure hr value.toValue
  | grouping id h => exact ih.expr hr ha h
  | unary id op h =>
    exact (ih.expr hr ha h).andThen fun v hr₁ _ => lockstep_ofExcept hr₁ op (applyUnary op v)
  | binary id op hleft hright =>
    rw [Eval.evaluate, Eval.evaluate]
    refine (ih.expr hr ha hleft).andThen fun a hr₁ hl₁ => ?_
    exact (ih.expr hr₁ (ha.current hl₁) hright).andThen fun b hr₂ _ =>
      lockstep_ofExcept hr₂ op (applyBinary op a b)
  | logical id op hleft hright =>
    rw [Eval.evaluate, Eval.evaluate]
    refine (ih.expr hr ha hleft).andThen fun a hr₁ hl₁ => ?_
    split_ifs
    · exact lockstep_pure hr₁ a
    · exact ih.expr hr₁ (ha.current hl₁) hright
  | var id h hplace => exact lockstep_readVariable hr ha h hplace
  | assign id h hplace hvalue =>
    rw [Eval.evaluate, Eval.evaluate]
    refine (ih.expr hr ha hvalue).andThen fun v hr₁ hl₁ => ?_
    exact (lockstep_writeVariable hr₁ (ha.current hl₁) h hplace v).andThen fun _ hr₂ _ =>
      lockstep_pure hr₂ v
  | call id paren hcallee hargs =>
    rw [Eval.evaluate, Eval.evaluate]
    refine (ih.expr hr ha hcallee).andThen fun f hr₁ hl₁ => ?_
    exact (ih.args hr₁ (ha.current hl₁) hargs).andThen fun vs hr₂ _ => ih.call paren f vs hr₂
  | get id name h =>
    rw [Eval.evaluate, Eval.evaluate]
    exact (ih.expr hr ha h).andThen fun v hr₁ _ => lockstep_getProperty hr₁ v name
  | set id name hobject hvalue =>
    rw [Eval.evaluate, Eval.evaluate]
    refine (ih.expr hr ha hobject).andThen fun owner hr₁ hl₁ => ?_
    refine (lockstep_fieldOwner hr₁ owner name).andThen fun i hr₂ hl₂ => ?_
    refine (ih.expr hr₂ ((ha.current hl₁).current hl₂) hvalue).andThen fun v hr₃ _ => ?_
    exact (lockstep_setField hr₃ i name.lexeme v).andThen fun _ hr₄ _ => lockstep_pure hr₄ v
  | this id h => exact lockstep_readVariable hr ha h fun hne => absurd rfl hne
  | super id method h => exact lockstep_superMethod hρ hr ha h method

theorem Simulates.evaluateAll (ih : Simulates ρ n) {es es' : List Expr} (hr : m.Renamed ρ T m')
    (ha : Along T m.heap m.current marks) (hes : RenamedArgs ρ marks es es') :
    Lockstep ρ T m sameResult (Eval.evaluateAll (n + 1) es m)
      (Eval.evaluateAll (n + 1) es' m') := by
  cases hes with
  | nil => exact lockstep_pure hr []
  | cons h hrest =>
    rw [Eval.evaluateAll, Eval.evaluateAll]
    refine (ih.expr hr ha h).andThen fun v hr₁ hl₁ => ?_
    exact (ih.args hr₁ (ha.current hl₁) hrest).andThen fun vs hr₂ _ => lockstep_pure hr₂ (v :: vs)

/-! ### Calls -/

theorem Simulates.callFunction (hρ : ρ.Proper) (ih : Simulates ρ n) {f f' : Function}
    (vs : List Value) (hr : m.Renamed ρ T m') (hf : f.Renamed ρ T m.heap [] f') :
    Lockstep ρ T m sameResult (Eval.callFunction (n + 1) f vs m)
      (Eval.callFunction (n + 1) f' vs m') := by
  have hbound := fun {T₁ : Marking} {m₁ m₁' : Machine} (hr₁ : m₁.Renamed ρ T₁ m₁')
    (hl₁ : Later T m T₁ m₁) =>
      lockstep_boundInstance hρ hr₁ (hf.of_extends hl₁.heap hl₁.continues)
  obtain ⟨⟨marks, ha, hcode⟩, hclosure, hinit⟩ := hf
  rw [Eval.callFunction, Eval.callFunction, hclosure, hinit]
  obtain ⟨decl, closure, isInitializer⟩ := f
  obtain ⟨decl', closure', isInitializer'⟩ := f'
  cases hcode with
  | mk name marked hparams hbody =>
    refine (lockstep_newScope hr ha marked (find?_bindArguments hparams vs)).bind
      fun {_ _ _ _ frame} hr₁ hl₁ hframe => ?_
    obtain ⟨rfl, hframe⟩ := hframe
    have hrun := Lockstep.withScope hr₁.current (ih.stmts (hr₁.withCurrent frame) hframe hbody)
    refine hrun.catchReturn.andThen fun v hr₂ hl₂ => ?_
    split_ifs
    · exact hbound hr₂ (hl₁.trans hl₂)
    · exact lockstep_pure hr₂ v

theorem Simulates.construct (ih : Simulates ρ n) (paren : Token) (id : ClassId) (vs : List Value)
    (hr : m.Renamed ρ T m') :
    Lockstep ρ T m sameResult (Eval.call (n + 1) paren (.cls id) vs m)
      (Eval.call (n + 1) paren (.cls id) vs m') := by
  rw [Eval.call_class, Eval.call_class]
  have hmethod := hr.heap.findMethod? id FunDecl.initializerName
  generalize m.heap.findMethod? id FunDecl.initializerName = f,
    m'.heap.findMethod? id FunDecl.initializerName = f' at hmethod ⊢
  cases hmethod with
  | none =>
    refine (lockstep_checkArity hr paren 0 vs.length).andThen fun _ hr₁ _ => ?_
    exact (lockstep_newInstance hr₁ id).andThen fun this hr₂ _ =>
      lockstep_pure hr₂ (Value.inst this)
  | some hf =>
    dsimp only
    rw [hf.arity]
    refine (lockstep_checkArity hr paren _ vs.length).andThen fun _ hr₁ hl₁ => ?_
    refine (lockstep_newInstance hr₁ id).andThen fun this hr₂ hl₂ => ?_
    have hl := hl₁.trans hl₂
    refine (lockstep_bindThis hr₂ (hf.of_extends hl.heap hl.continues) this).bind
      fun hr₃ _ hbound => ?_
    exact (ih.body vs hr₃ hbound).andThen fun _ hr₄ _ => lockstep_pure hr₄ (Value.inst this)

theorem Simulates.callValue (ih : Simulates ρ n) (paren : Token) (f : Value) (vs : List Value)
    (hr : m.Renamed ρ T m') :
    Lockstep ρ T m sameResult (Eval.call (n + 1) paren f vs m)
      (Eval.call (n + 1) paren f vs m') := by
  cases f with
  | native f =>
    exact (lockstep_checkArity hr paren f.arity vs.length).andThen fun _ hr₁ _ =>
      lockstep_callNative hr₁ paren f
  | function id =>
    show Lockstep ρ T m sameResult
      ((Eval.checkArity paren (m.heap.function id).arity vs.length >>= fun _ =>
        Eval.callFunction n (m.heap.function id) vs) m)
      ((Eval.checkArity paren (m'.heap.function id).arity vs.length >>= fun _ =>
        Eval.callFunction n (m'.heap.function id) vs) m')
    have hf := hr.heap.functions id
    rw [hf.arity]
    exact (lockstep_checkArity hr paren _ vs.length).andThen fun _ hr₁ hl₁ =>
      ih.body vs hr₁ (hf.of_extends hl₁.heap hl₁.continues)
  | cls id => exact ih.construct paren id vs hr
  | _ => exact lockstep_fault hr _ paren

/-! ### Statements -/

theorem lockstep_asSuperclass (hr : m.Renamed ρ T m') (name : Token) {e e' : Expr}
    (he : e.Renamed ρ marks e') (v : Value) :
    Lockstep ρ T m sameResult (Eval.asSuperclass (Eval.superclassToken name e) v m)
      (Eval.asSuperclass (Eval.superclassToken name e') v m') := by
  have herror : SameError ρ (Fault.superclassNotClass.at_ (Eval.superclassToken name e))
      (Fault.superclassNotClass.at_ (Eval.superclassToken name e')) := by
    cases he with
    | var id h hplace => exact h.blamed
    | _ => exact .same _
  cases v with
  | cls id => exact lockstep_pure hr id
  | _ => exact .error hr (.refl T m) herror

theorem Simulates.execute (ih : Simulates ρ n) {s s' : Stmt} (hr : m.Renamed ρ T m')
    (ha : Along T m.heap m.current marks) (hs : s.Renamed ρ marks s') :
    Lockstep ρ T m sameResult (Eval.execute (n + 1) s m) (Eval.execute (n + 1) s' m') := by
  cases hs with
  | expression h =>
    exact (ih.expr hr ha h).andThen fun _ hr₁ _ => lockstep_pure hr₁ ()
  | print h => exact (ih.expr hr ha h).andThen fun v hr₁ _ => lockstep_print hr₁ v
  | var h => exact (lockstep_define hr ha h .nil).mono fun _ _ => rfl
  | varInit h hinit =>
    rw [Eval.execute, Eval.execute]
    exact (ih.expr hr ha hinit).andThen fun v hr₁ hl₁ =>
      (lockstep_define hr₁ (ha.current hl₁) h v).mono fun _ _ => rfl
  | @block _ body body' marked h =>
    show Lockstep ρ T m sameResult
      ((Eval.newScope m.current {} >>= fun s => Eval.withScope s (Eval.executeAll n body)) m)
      ((Eval.newScope m'.current {} >>= fun s => Eval.withScope s (Eval.executeAll n body')) m')
    rw [hr.current]
    refine (lockstep_newScope hr ha marked fun x => rfl).bind
      fun {_ _ _ _ inner} hr₁ _ hinner => ?_
    obtain ⟨rfl, hinner⟩ := hinner
    exact Lockstep.withScope hr₁.current (ih.stmts (hr₁.withCurrent inner) hinner h)
  | ifThen hcond hthen =>
    rw [Eval.execute, Eval.execute]
    refine (ih.expr hr ha hcond).andThen fun v hr₁ hl₁ => ?_
    split_ifs
    · exact ih.stmt hr₁ (ha.current hl₁) hthen
    · exact lockstep_pure hr₁ ()
  | ifElse hcond hthen helse =>
    rw [Eval.execute, Eval.execute]
    refine (ih.expr hr ha hcond).andThen fun v hr₁ hl₁ => ?_
    split_ifs
    · exact ih.stmt hr₁ (ha.current hl₁) hthen
    · exact ih.stmt hr₁ (ha.current hl₁) helse
  | while_ hcond hbody => exact ih.loop hr ha hcond hbody
  | @function _ decl decl' hname h =>
    show Lockstep ρ T m sameResult
      ((Eval.newFunction ⟨decl, m.current, false⟩ >>= fun f =>
        Eval.define decl.name.lexeme f) m)
      ((Eval.newFunction ⟨decl', m'.current, false⟩ >>= fun f =>
        Eval.define decl'.name.lexeme f) m')
    have hf : Function.Renamed ρ T m.heap [] ⟨decl, m.current, false⟩ ⟨decl', m'.current, false⟩ :=
      ⟨⟨marks, ha, h⟩, hr.current, rfl⟩
    rw [h.name]
    exact (lockstep_newFunction hr hf).andThen fun f hr₁ hl₁ =>
      (lockstep_define hr₁ (ha.current hl₁) hname.renames f).mono fun _ _ => rfl
  | return_ marks keyword => exact .returned keyword .nil hr (.refl T m)
  | returnValue keyword h =>
    exact (ih.expr hr ha h).andThen fun v hr₁ _ => .returned keyword v hr₁ (.refl _ _)
  | class_ hname h => exact lockstep_defineClass hr ha hname none h
  | subclass hname hsuperclass h =>
    rw [Eval.execute, Eval.execute]
    refine (ih.expr hr ha hsuperclass).andThen fun v hr₁ hl₁ => ?_
    refine (lockstep_asSuperclass hr₁ _ hsuperclass v).andThen fun parent hr₂ hl₂ => ?_
    exact lockstep_defineClass hr₂ ((ha.current hl₁).current hl₂) hname (some parent) h

theorem Simulates.repeat (ih : Simulates ρ n) {cond cond' : Expr} {s s' : Stmt}
    (hr : m.Renamed ρ T m') (ha : Along T m.heap m.current marks)
    (hcond : cond.Renamed ρ marks cond') (hs : s.Renamed ρ marks s') :
    Lockstep ρ T m sameResult (Eval.loop (n + 1) cond s m) (Eval.loop (n + 1) cond' s' m') := by
  rw [Eval.loop, Eval.loop]
  refine (ih.expr hr ha hcond).andThen fun v hr₁ hl₁ => ?_
  split_ifs
  · refine (ih.stmt hr₁ (ha.current hl₁) hs).andThen fun _ hr₂ hl₂ => ?_
    exact ih.loop hr₂ ((ha.current hl₁).current hl₂) hcond hs
  · exact lockstep_pure hr₁ ()

theorem Simulates.executeAll (ih : Simulates ρ n) {body body' : List Stmt}
    (hr : m.Renamed ρ T m') (ha : Along T m.heap m.current marks)
    (hbody : RenamedAll ρ marks body body') :
    Lockstep ρ T m sameResult (Eval.executeAll (n + 1) body m)
      (Eval.executeAll (n + 1) body' m') := by
  cases hbody with
  | nil marks => exact lockstep_pure hr ()
  | cons h hrest =>
    rw [Eval.executeAll, Eval.executeAll]
    exact (ih.stmt hr ha h).andThen fun _ hr₁ hl₁ => ih.stmts hr₁ (ha.current hl₁) hrest

end Lox
