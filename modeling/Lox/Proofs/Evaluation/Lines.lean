import Mathlib.Tactic.Common
import Lox.Proofs.Evaluation.Moments

/-!
# The lines of a run

A print statement writes a line: the value of its expression as the heap displays it at that moment,
and a newline. The moments of a run show when that happens, so the lines of a run are read off them
(`linesOf`), in the order of execution.

`Eval.Writes p w` says that output goes out of a computation and never comes back: whatever the
output of the machine it starts on, broken or not, the computation ends in the same way, and the
output at the end is the one at the start with the lines of the moments `w` written to it. The
evaluator in all its parts is put together in ways that respect `Writes` (`evaluation_writes`).
-/

namespace Lox

/-- What an executed print statement displays, and the heap at that moment. -/
structure Line where
  value : Value
  heap : Heap

def Line.text (l : Line) : String := l.heap.display l.value ++ "\n"

/-! ### Outputs -/

namespace Output

/-- Write lines one after the other. -/
def writeAll (o : Output) (ls : List Line) : Output := ls.foldl (fun o l => o.write l.text) o

theorem writeAll_append (o : Output) (ls ls' : List Line) :
    o.writeAll (ls ++ ls') = (o.writeAll ls).writeAll ls' :=
  List.foldl_append

/-- Nothing arrives in a broken output, and any other has the lines at its end. -/
theorem writeAll_eq (o : Output) (ls : List Line) :
    o.writeAll ls =
      if o.broken then o else { o with text := o.text ++ String.join (ls.map Line.text) } := by
  induction ls generalizing o with
  | nil => cases o; simp [writeAll, String.join]
  | cons l ls ih =>
    have hcons : o.writeAll (l :: ls) = (o.write l.text).writeAll ls := rfl
    rw [hcons, ih]
    cases hbroken : o.broken with
    | true => simp [write, hbroken]
    | false => simp [write, hbroken, String.append_assoc]

end Output

def Machine.withOutput (m : Machine) (o : Output) : Machine := { m with output := o }

variable {α β : Type}

/-- The same end with another output. -/
def Outcome.withOutput (o : Output) : Outcome α → Outcome α
  | .ok a m => .ok a (m.withOutput o)
  | .error e m => .error e (m.withOutput o)
  | .returned keyword v m => .returned keyword v (m.withOutput o)
  | .outOfFuel => .outOfFuel

/-! ### Lines -/

/-- The line that is printed at a moment. -/
def Moment.line? (x : Moment) : Option Line :=
  match x.act with
  | .prints v => some ⟨v, x.machine.heap⟩
  | _ => none

/-- The lines that are printed at some moments. -/
def linesOf (xs : List Moment) : List Line := xs.filterMap Moment.line?

theorem linesOf_append (xs ys : List Moment) : linesOf (xs ++ ys) = linesOf xs ++ linesOf ys :=
  List.filterMap_append

theorem linesOf_cons {x : Moment} (hx : x.line? = none) (xs : List Moment) :
    linesOf (x :: xs) = linesOf xs :=
  List.filterMap_cons_none hx

/-- An act that prints nothing. -/
def Act.IsSilent : Act → Prop
  | .prints _ => False
  | _ => True

theorem Moment.line?_of_isSilent {x : Moment} (h : x.act.IsSilent) : x.line? = none := by
  unfold Moment.line?
  split
  · rename_i v hact
    rw [hact] at h
    exact h.elim
  · rfl

/-- The lines of a task with some fuel. -/
def lines (fuel : Nat) (t : Task) (m : Machine) : List Line := linesOf (moments fuel t [] m)

/-- The moments of a part of a run in another current scope. -/
def Seen.within (s : ScopeId) (w : Seen) : Seen := fun held m =>
  w (.scope m.current :: held) { m with current := s }

/-! ### Writing -/

namespace Eval

open Seen

/-- With any output at the start, `p` ends in the same way, and the lines of the moments `w` have
been written. -/
def Writes (p : Eval α) (w : Seen) : Prop :=
  ∀ held m o, p (m.withOutput o) = (p m).withOutput (o.writeAll (linesOf (w held m)))

variable {p : Eval α} {f : α → Eval β} {w w' : Seen} {n : Nat}

theorem Writes.congr (hp : Writes p w) (h : ∀ held m, linesOf (w' held m) = linesOf (w held m)) :
    Writes p w' := by
  intro held m o
  rw [hp held m o, h]

theorem Writes.bind {wf : α → Seen} (hp : Writes p w) (hf : ∀ a, Writes (f a) (wf a)) :
    Writes (p >>= f) (w.andThen p wf) := by
  intro held m o
  show Eval.bind p f (m.withOutput o) = (Eval.bind p f m).withOutput _
  unfold Eval.bind andThen
  rw [hp held m o, linesOf_append, Output.writeAll_append]
  cases p m with
  | ok a next => exact hf a held next _
  | error e next => rfl
  | returned keyword v next => rfl
  | outOfFuel => rfl

theorem Writes.after {wf : α → Seen} (hp : Writes p nothing) (hf : ∀ a, Writes (f a) (wf a)) :
    Writes (p >>= f) (after p wf) :=
  hp.bind hf

theorem Writes.bind_silent (hp : Writes p w) (hf : ∀ a, Writes (f a) nothing) :
    Writes (p >>= f) w := by
  have h := hp.bind hf
  rwa [andThen_nothing] at h

theorem Writes.holding (hp : Writes p w) (refs : List Ref) : Writes p (holding refs w) :=
  fun held m o => hp (refs ++ held) m o

theorem Writes.noting (hp : Writes p w) (t : Task) {act : Act} (hact : act.IsSilent) :
    Writes p (noting t act w) :=
  hp.congr fun _ _ => linesOf_cons (Moment.line?_of_isSilent hact) _

theorem Writes.change (hp : Writes p nothing) (t : Task) {act : Machine → Act}
    (hact : ∀ m, (act m).IsSilent) (refs : α → List Ref) : Writes p (change t act refs p) := by
  refine hp.congr fun held m => ?_
  unfold Seen.change
  split
  · exact linesOf_cons (Moment.line?_of_isSilent (hact m)) []
  · rfl

theorem Writes.task (hp : Writes p w) (t : Task) (refs : α → List Ref) :
    Writes p (task t refs p w) := by
  intro held m o
  have hend : linesOf (ending t refs p held m) = [] := by
    unfold ending
    split <;> rfl
  rw [hp (t.refs ++ held) m o, Seen.task, linesOf_cons (by rfl), linesOf_append, hend,
    List.append_nil]

theorem Writes.withScope (hp : Writes p w) (s : ScopeId) :
    Writes (withScope s p) (within s w) := by
  intro held m o
  have h := hp (.scope m.current :: held) { m with current := s } o
  unfold Eval.withScope within
  simp only [Machine.withOutput] at h ⊢
  rw [h]
  cases p { m with current := s } <;> rfl

theorem Writes.catchReturn {p : Eval Unit} (hp : Writes p w) : Writes (catchReturn p) w := by
  intro held m o
  unfold Eval.catchReturn
  rw [hp held m o]
  cases p m <;> rfl

theorem Writes.inside {t : Task} {enclosing : ScopeId} {values : Table Value} {p : Eval Unit}
    {q : Eval β} (hq : Writes q (Seen.after (Eval.newScope enclosing values) fun s => within s w)) :
    Writes q (inside t enclosing values p w) := by
  refine hq.congr fun held m => ?_
  have hleave : ∀ next, linesOf (leaving t m.current p held next) = [] := by
    intro next
    unfold leaving
    split <;> rfl
  unfold Seen.inside
  rw [show Eval.newScope enclosing values m = .ok _ _ from rfl]
  dsimp only
  rw [linesOf_cons (by rfl), linesOf_append, hleave, List.append_nil]
  rfl

/-! ### Single steps -/

theorem writes_pure (a : α) : Writes (Pure.pure a) nothing := fun _ _ _ => rfl

theorem writes_stops (t : Task) : Writes (outOfFuel : Eval α) (moments 0 t) := fun _ _ _ => rfl

theorem writes_fault (fault : Fault) (token : Token) :
    Writes (Eval.fault fault token : Eval α) nothing := fun _ _ _ => rfl

theorem writes_ofExcept (token : Token) (r : Except Fault α) :
    Writes (ofExcept token r) nothing := by
  cases r with
  | ok a => exact writes_pure a
  | error f => exact writes_fault f token

theorem writes_inspect (g : Heap → α) : Writes (inspect g) nothing := fun _ _ _ => rfl

theorem writes_newScope (enclosing : ScopeId) (values : Table Value) :
    Writes (newScope enclosing values) nothing := fun _ _ _ => rfl

theorem writes_currentScope : Writes currentScope nothing := fun _ _ _ => rfl

theorem writes_define (name : String) (v : Value) : Writes (define name v) nothing :=
  fun _ _ _ => rfl

theorem writes_assign (name : Token) (v : Value) : Writes (assign name v) nothing := by
  intro held m o
  unfold assign
  simp only [Machine.withOutput]
  cases m.heap.holder? m.current name.lexeme <;> rfl

theorem writes_readVariable (id : NodeId) (name : Token) :
    Writes (readVariable id name) nothing := by
  intro held m o
  unfold readVariable
  simp only [Machine.withOutput]
  split <;> rfl

theorem writes_writeVariable (id : NodeId) (name : Token) (v : Value) :
    Writes (writeVariable id name v) nothing := by
  intro held m o
  unfold writeVariable
  simp only [Machine.withOutput]
  split <;> rfl

theorem writes_newScope_seen (t : Task) (enclosing : ScopeId) (values : Table Value) :
    Writes (newScope enclosing values) (Seen.newScope t enclosing values) := fun _ _ _ => rfl

theorem Writes.binding {p : Eval Unit} (hp : Writes p nothing) (t : Task) :
    Writes p (binding t p) :=
  hp.change t (fun _ => by trivial) _

theorem writes_boundMethod (t : Task) (c : ClassId) (name : String) (method : Function)
    (this : InstanceId) :
    Writes (boundMethod method this) (Seen.boundMethod t c name method this) := fun _ _ _ => rfl

theorem writes_print (t : Task) (v : Value) :
    Writes (print v) (change t (fun _ => .prints v) (fun _ => []) (print v)) := fun _ _ _ => rfl

/-! ### Properties, classes and calls -/

theorem writes_getProperty (t : Task) (object : Value) (name : Token) :
    Writes (getProperty object name) (Seen.getProperty t object name) := by
  cases object with
  | inst id =>
    refine Writes.noting (Writes.after (writes_inspect _) fun fields => ?_) t (by trivial)
    cases fields.find? name.lexeme with
    | some v => exact writes_pure v
    | none =>
      refine Writes.after (writes_inspect _) fun method => ?_
      cases method with
      | some method =>
        exact fun held m o => writes_boundMethod t _ name.lexeme method id held m o
      | none => exact writes_fault _ name
  | _ => exact writes_fault _ name

theorem writes_fieldOwner (object : Value) (name : Token) :
    Writes (fieldOwner object name) nothing := by
  cases object with
  | inst id => exact writes_pure id
  | _ => exact writes_fault _ name

theorem writes_superclassAt (distance : Nat) (keyword : Token) :
    Writes (superclassAt distance keyword) nothing := by
  intro held m o
  unfold superclassAt
  simp only [Machine.withOutput]
  split <;> rfl

theorem writes_thisInside (distance : Nat) (keyword : Token) :
    Writes (thisInside distance keyword) nothing := by
  intro held m o
  cases distance with
  | zero => rfl
  | succ inner =>
    unfold thisInside
    simp only [Machine.withOutput]
    split <;> rfl

theorem writes_superMethod (t : Task) (id : NodeId) (keyword method : Token) :
    Writes (superMethod id keyword method) (Seen.superMethod t id keyword method) := by
  have hlook : Writes (fun m => .ok (m.distances.find? id) m) nothing := fun _ _ _ => rfl
  unfold Eval.superMethod Seen.superMethod
  refine Writes.after hlook fun distance => ?_
  cases distance with
  | none => exact writes_fault _ keyword
  | some distance =>
    refine Writes.after (writes_superclassAt distance keyword) fun parent => ?_
    refine Writes.after (writes_thisInside distance keyword) fun this => ?_
    refine Writes.after (writes_inspect _) fun f => ?_
    cases f with
    | some f => exact writes_boundMethod t parent method.lexeme f this
    | none => exact writes_fault _ method

theorem writes_asSuperclass (blamed : Token) (v : Value) :
    Writes (asSuperclass blamed v) nothing := by
  cases v with
  | cls id => exact writes_pure id
  | _ => exact writes_fault _ blamed

theorem writes_methodClosure (t : Task) (parent : Option ClassId) :
    Writes (methodClosure parent) (Seen.methodClosure t parent) := by
  cases parent with
  | some parent => exact Writes.after writes_currentScope fun s => writes_newScope_seen t s _
  | none => exact writes_currentScope

theorem writes_defineClass (t : Task) (name : Token) (parent : Option ClassId)
    (methods : List FunDecl) :
    Writes (defineClass name parent methods) (Seen.defineClass t name parent methods) := by
  have hnew (d : Declaration) :
      Writes (newClass ⟨d.name.lexeme, d.parent, methodTable d.closure d.methods⟩)
        (Seen.newClass t d) := fun _ _ _ => rfl
  refine Writes.bind ((writes_define _ _).binding t) fun _ => ?_
  refine Writes.bind (writes_methodClosure t parent) fun closure => ?_
  refine Writes.bind (hnew ⟨name, parent, closure, methods⟩) fun c => ?_
  exact ((writes_assign name c).binding t).holding _

theorem writes_checkArity (paren : Token) (expected got : Nat) :
    Writes (checkArity paren expected got) nothing := by
  unfold checkArity
  split_ifs
  · exact writes_pure ()
  · exact writes_fault _ paren

theorem writes_boundInstance (f : Function) : Writes (boundInstance f) nothing := by
  intro held m o
  unfold boundInstance
  simp only [Machine.withOutput]
  split <;> rfl

theorem writes_callNative (t : Task) (paren : Token) (f : Native) :
    Writes (callNative paren f) (Seen.callNative t f) := by
  cases f with
  | clock =>
    have hread : Writes readClock (change t (fun _ => .ticks) (fun _ => []) readClock) :=
      fun _ _ _ => rfl
    unfold Eval.callNative Seen.callNative
    refine Writes.bind hread fun reading => ?_
    cases reading with
    | some n => exact writes_pure _
    | none => exact writes_fault _ paren

/-! ### The evaluator -/

/-- With `n` units of fuel, the evaluator in all its parts writes its lines and does nothing else
with the output. -/
structure WritesLines (n : Nat) : Prop where
  expr : ∀ e, Writes (evaluate n e) (moments n (.expr e))
  args : ∀ es, Writes (evaluateAll n es) (moments n (.args es))
  call : ∀ paren f vs, Writes (call n paren f vs) (moments n (.call paren f vs))
  body : ∀ f origin vs, Writes (callFunction n f vs) (moments n (.body f origin vs))
  stmt : ∀ s, Writes (execute n s) (moments n (.stmt s))
  loop : ∀ cond s, Writes (loop n cond s) (moments n (.loop cond s))
  stmts : ∀ body, Writes (executeAll n body) (moments n (.stmts body))

namespace WritesLines

theorem evaluate (ih : WritesLines n) (e : Expr) :
    Writes (evaluate (n + 1) e) (ofExpr n (moments n) e) := by
  cases e with
  | literal id value => exact writes_pure _
  | grouping id inner => exact ih.expr inner
  | unary id op right => exact (ih.expr right).bind_silent fun v => writes_ofExcept op _
  | binary id left op right =>
    refine (ih.expr left).bind fun a => Writes.holding ?_ a.refs
    exact (ih.expr right).bind_silent fun b => writes_ofExcept op _
  | logical id left op right =>
    refine (ih.expr left).bind fun a => ?_
    split_ifs
    · exact writes_pure a
    · exact ih.expr right
  | var id name => exact writes_readVariable id name
  | assign id name value =>
    refine (ih.expr value).bind fun v => Writes.holding (Writes.noting ?_ _ (by trivial)) v.refs
    exact ((writes_writeVariable id name v).binding _).bind_silent fun _ => writes_pure v
  | call id callee paren args =>
    refine (ih.expr callee).bind fun f => Writes.holding ?_ f.refs
    exact (ih.args args).bind fun vs => ih.call paren f vs
  | get id object name =>
    exact (ih.expr object).bind fun v => (writes_getProperty _ v name).holding v.refs
  | set id object name value =>
    have hset (i : InstanceId) (v : Value) : Writes (setField i name.lexeme v) nothing :=
      fun _ _ _ => rfl
    refine (ih.expr object).bind fun owner => ?_
    refine Writes.after (writes_fieldOwner owner name) fun i => ?_
    refine Writes.holding ((ih.expr value).bind fun v => Writes.holding ?_ v.refs) [.inst i]
    exact ((hset i v).change _ (fun _ => by trivial) _).bind_silent fun _ => writes_pure v
  | this id keyword => exact writes_readVariable id keyword
  | super id keyword method => exact writes_superMethod _ id keyword method

theorem evaluateAll (ih : WritesLines n) (es : List Expr) :
    Writes (evaluateAll (n + 1) es) (ofArgs n (moments n) es) := by
  cases es with
  | nil => exact writes_pure []
  | cons e es =>
    refine (ih.expr e).bind fun v => Writes.holding ?_ v.refs
    exact (ih.args es).bind_silent fun vs => writes_pure _

theorem callValue (ih : WritesLines n) (paren : Token) (f : Value) (vs : List Value) :
    Writes (Eval.call (n + 1) paren f vs) (ofCall (moments n) paren f vs) := by
  cases f with
  | native f =>
    exact Writes.after (writes_checkArity paren _ _) fun _ => writes_callNative _ paren f
  | function id =>
    rw [Eval.call, ofCall]
    refine Writes.after (writes_inspect _) fun f => ?_
    exact Writes.after (writes_checkArity paren _ _) fun _ => ih.body f _ vs
  | cls id =>
    have hnew (t : Task) : Writes (newInstance id) (Seen.newInstance t id) := fun _ _ _ => rfl
    rw [Eval.call, ofCall]
    refine Writes.after (writes_inspect _) fun initializer => ?_
    refine Writes.after (writes_checkArity paren _ _) fun _ => ?_
    refine Writes.bind (hnew _) fun this => Writes.holding ?_ [.inst this]
    cases initializer with
    | none => exact writes_pure _
    | some f =>
      show Writes (newScope f.closure _ >>= fun closure => callFunction n { f with closure } vs >>=
        fun _ => Pure.pure (Value.inst this)) _
      refine Writes.bind (writes_newScope_seen _ f.closure _) fun closure => ?_
      exact (ih.body _ _ vs).bind_silent fun _ => writes_pure _
  | _ => exact writes_fault _ paren

theorem callFunction (ih : WritesLines n) (f : Function) (origin : Origin) (vs : List Value) :
    Writes (callFunction (n + 1) f vs) (ofBody n (moments n) f origin vs) := by
  refine Writes.inside (Writes.after (writes_newScope _ _) fun frame => ?_)
  refine ((ih.stmts f.decl.body).withScope frame).catchReturn.bind_silent fun result => ?_
  split_ifs
  · exact writes_boundInstance f
  · exact writes_pure result

theorem execute (ih : WritesLines n) (s : Stmt) :
    Writes (execute (n + 1) s) (ofStmt n (moments n) s) := by
  have hleave (keyword : Token) (v : Value) : Writes (leave keyword v : Eval Unit) nothing :=
    fun _ _ _ => rfl
  cases s with
  | expression e => exact (ih.expr e).bind_silent fun _ => writes_pure ()
  | print e => exact (ih.expr e).bind fun v => (writes_print _ v).holding v.refs
  | var name init =>
    cases init with
    | none => exact (writes_define _ _).binding _
    | some init =>
      exact (ih.expr init).bind fun v => ((writes_define _ v).binding _).holding v.refs
  | block body =>
    rw [Eval.execute, ofStmt]
    refine Writes.after writes_currentScope fun outer => Writes.inside ?_
    exact Writes.after (writes_newScope outer _) fun inner => (ih.stmts body).withScope inner
  | ifElse cond thenBranch elseBranch =>
    refine (ih.expr cond).bind fun v => ?_
    split_ifs
    · exact ih.stmt thenBranch
    · cases elseBranch with
      | some s => exact ih.stmt s
      | none => exact writes_pure ()
  | while_ cond body => exact ih.loop cond body
  | function decl =>
    have hnew (t : Task) (f : Function) :
        Writes (newFunction f) (Seen.newFunction t .declaration f) :=
      fun _ _ _ => rfl
    refine Writes.after writes_currentScope fun closure => Writes.bind (hnew _ _) fun f => ?_
    exact ((writes_define _ f).binding _).holding f.refs
  | return_ keyword value =>
    cases value with
    | none => exact hleave keyword .nil
    | some value => exact (ih.expr value).bind_silent fun v => hleave keyword v
  | class_ name superclass methods =>
    cases superclass with
    | none => exact writes_defineClass _ name none methods
    | some superclass =>
      refine (ih.expr superclass).bind fun v => Writes.holding ?_ v.refs
      exact Writes.after (writes_asSuperclass _ v) fun parent =>
        writes_defineClass _ name parent methods

theorem repeats (ih : WritesLines n) (cond : Expr) (s : Stmt) :
    Writes (Eval.loop (n + 1) cond s) (ofLoop n (moments n) cond s) := by
  refine (ih.expr cond).bind fun v => ?_
  split_ifs
  · exact (ih.stmt s).bind fun _ => ih.loop cond s
  · exact writes_pure ()

theorem executeAll (ih : WritesLines n) (body : List Stmt) :
    Writes (executeAll (n + 1) body) (ofStmts n (moments n) body) := by
  cases body with
  | nil => exact writes_pure ()
  | cons s rest => exact (ih.stmt s).bind fun _ => ih.stmts rest

end WritesLines

/-- Output never comes back: evaluation is the same with any output, and writes its lines to it. -/
theorem evaluation_writes (n : Nat) : WritesLines n := by
  induction n with
  | zero =>
    exact ⟨fun _ => writes_stops _, fun _ => writes_stops _, fun _ _ _ => writes_stops _,
      fun _ _ _ => writes_stops _, fun _ => writes_stops _, fun _ _ => writes_stops _,
      fun _ => writes_stops _⟩
  | succ n ih =>
    exact ⟨fun e => (ih.evaluate e).task _ _, fun es => (ih.evaluateAll es).task _ _,
      fun paren f vs => (ih.callValue paren f vs).task _ _,
      fun f origin vs => (ih.callFunction f origin vs).task _ _,
      fun s => (ih.execute s).task _ _, fun cond s => (ih.repeats cond s).task _ _,
      fun body => (ih.executeAll body).task _ _⟩

end Eval

end Lox
