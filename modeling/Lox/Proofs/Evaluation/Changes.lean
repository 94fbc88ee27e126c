import Lox.Proofs.Evaluation.Displays

/-!
# What evaluation can do

All that evaluation ever does is said here once. It finds things in the heap and in the code
(`Look`), it changes the machine (`Change`), and it ends with a runtime error (`Fails`), each time
at work on some task and with some facts in hand.

A `Fact` is what the evaluator has in hand without further ado: a handle, a name that a scope binds,
a function that may be called, a method, which becomes such a function once it is bound to an
instance, and a task that may be done in some scope. Functions, methods and tasks come with the
activations that their code belongs to.
-/

namespace Lox

/-- What the evaluator has in hand. -/
inductive Fact where
  | ref (r : Ref)
  | bound (s : ScopeId) (x : String)
  | callable (d : Display) (f : Function)
  | method (d : Display) (f : Function)
  | task (d : Display) (s : ScopeId) (t : Task)

def Value.facts (v : Value) : List Fact := v.refs.map .ref

/-- What has been bound once a statement has been executed in the scope `s`. -/
def Stmt.facts (s : ScopeId) (stmt : Stmt) : List Fact :=
  stmt.declared?.toList.map fun name => .bound s name.lexeme

/-- What has to be in hand when a class is declared. -/
def Declaration.facts (D : Displays) (d : Declaration) : List Fact :=
  (d.parent.toList.map fun c => .ref (.cls c)) ++ .ref (.scope d.closure) ::
    d.methods.map fun f => .method (D.ofClass d) ⟨f, d.closure, f.isInitializer⟩

/-- A scope lies around the current scope or the global one. -/
def Machine.InSight (m : Machine) (s : ScopeId) : Prop :=
  (∃ k, m.heap.ancestor? m.current k = some s) ∨ ∃ k, m.heap.ancestor? m.globals k = some s

/-- The machine with one more scope, and that scope current. -/
def Machine.entering (m : Machine) (s : Scope) : Machine :=
  { m with heap := (m.heap.newScope s).2, current := m.heap.scopes.size }

/-- The same end, back in the scope `s`. -/
def Outcome.withCurrent {α : Type} (s : ScopeId) : Outcome α → Outcome α
  | .ok a m => .ok a { m with current := s }
  | .error e m => .error e { m with current := s }
  | .returned keyword v m => .returned keyword v { m with current := s }
  | .outOfFuel => .outOfFuel

theorem Eval.inside_eq {α : Type} (enclosing : ScopeId) (values : Table Value) (p : Eval α)
    (m : Machine) : (newScope enclosing values >>= fun s => withScope s p) m =
      (p (m.entering ⟨values, some enclosing⟩)).withCurrent m.current := by
  show withScope _ p _ = _
  unfold withScope Machine.entering
  dsimp only [Heap.newScope]
  generalize p _ = o
  cases o <;> rfl

/-- What the evaluator finds at work on a task, with some facts in hand. -/
inductive Look (D : Displays) (m : Machine) : Task → List Fact → Fact → Prop where
  | current (t : Task) : Look D m t [] (.ref (.scope m.current))
  /-- The value of a variable. -/
  | named {s : ScopeId} {x : String} {v : Value} {r : Ref} (t : Task) (hs : m.InSight s)
    (hv : m.heap.getLocal? s x = some v) (hr : r ∈ v.refs) : Look D m t [] (.ref r)
  /-- The value of `this` where a function closes over it. -/
  | receiver {d : Display} {f : Function} {v : Value} {r : Ref} (t : Task)
    (hv : m.heap.getLocal? f.closure "this" = some v) (hr : r ∈ v.refs) :
    Look D m t [.callable d f] (.ref r)
  | closure (t : Task) (d : Display) (f : Function) :
    Look D m t [.callable d f] (.ref (.scope f.closure))
  | field {o : InstanceId} {x : String} {v : Value} {r : Ref} (t : Task)
    (hv : (m.heap.inst o).fields.find? x = some v) (hr : r ∈ v.refs) :
    Look D m t [.ref (.inst o)] (.ref r)
  | cls (t : Task) (o : InstanceId) :
    Look D m t [.ref (.inst o)] (.ref (.cls (m.heap.inst o).cls))
  | function (t : Task) (g : FunctionId) :
    Look D m t [.ref (.function g)] (.callable (D.functions g) (m.heap.function g))
  | method {c : ClassId} {x : String} {f : Function} (t : Task)
    (hf : m.heap.findMethod? c x = some f) :
    Look D m t [.ref (.cls c)] (.method (D.methods c x) f)
  /-- A method of a class that is being declared without a superclass. -/
  | own {name : Token} {methods : List FunDecl} {d : FunDecl} (hd : d ∈ methods) :
    Look D m (.stmt (.class_ name none methods)) [.bound m.current name.lexeme]
      (.method D.top ⟨d, m.current, d.isInitializer⟩)
  | part {t t' : Task} (h : t.Part t') : Look D m t [] (.task D.top m.current t')
  /-- The statements after one that has been executed. -/
  | following (s : Stmt) (rest : List Stmt) :
    Look D m (.stmts (s :: rest)) (s.facts m.current) (.task D.top m.current (.stmts rest))
  /-- The body of a function that is called with as many arguments as it has parameters. -/
  | called {d : Display} {f : Function} {vs : List Value} (t : Task) (origin : Origin)
    (harity : vs.length = f.arity) :
    Look D m t [.callable d f] (.task D.top m.current (.body f origin vs))

/-- The name of a class with the superclass `c` has been bound by its declaration, after the
expression `e` for the superclass has been evaluated. -/
def Declaring (past : List Moment) (m : Machine) (name : Token) (e : Expr)
    (methods : List FunDecl) (c : ClassId) : Prop :=
  ∃ x ∈ past, ∃ y ∈ past, x.task = .stmt (.class_ name (some e) methods) ∧ y.task = .expr e ∧
    y.machine = x.machine ∧ ∃ n next, Eval.evaluate n e x.machine = .ok (.cls c) next ∧
      m = { next with heap := next.heap.define next.current name.lexeme .nil }

/-- What the evaluator does to the machine at work on a task: what it is called, the facts that it
takes, the machine afterwards, and the facts that it gives. -/
inductive Change (past : List Moment) (m : Machine) :
    Task → Act → List Fact → Machine → List Fact → Prop where
  | rests (t : Task) : Change past m t .rests [] m []
  | begins (t : Task) : Change past m t .begins [] m []
  | stops (t : Task) : Change past m t .stops [] m []
  | ends (t : Task) : Change past m t .ends [] m []
  | reaches (t : Task) : Change past m t .reaches [] m []
  | reads (t : Task) (o : InstanceId) (name : Token) :
    Change past m t (.reads o name) [.ref (.inst o)] m []
  | define {t : Task} {name : Token} (ht : t.bound? = some name) (v : Value) :
    Change past m t .binds v.facts { m with heap := m.heap.define m.current name.lexeme v }
      [.bound m.current name.lexeme]
  | assign {t : Task} {name : Token} {s : ScopeId} (ht : t.bound? = some name) (hs : m.InSight s)
    (hx : (m.heap.scope s).values.contains name.lexeme = true) (v : Value) :
    Change past m t .binds v.facts { m with heap := m.heap.define s name.lexeme v } []
  | writes (t : Task) (o : InstanceId) (x : String) (v : Value) :
    Change past m t (.writes o x v m) (.ref (.inst o) :: v.facts)
      { m with heap := m.heap.setField o x v } []
  | prints (t : Task) (v : Value) :
    Change past m t (.prints v) v.facts
      { m with output := m.output.write (m.heap.display v ++ "\n") } []
  | ticks (t : Task) : Change past m t .ticks [] m.ticked []
  | creates (t : Task) (c : ClassId) :
    Change past m t (.creates m.heap.instances.size c) [.ref (.cls c)]
      { m with heap := (m.heap.newInstance ⟨c, {}⟩).2 } [.ref (.inst m.heap.instances.size)]
  | closes (t : Task) (origin : Origin) (f : Function) :
    Change past m t (.closes m.heap.functions.size origin)
      [.callable ((displays past).kept origin f) f] { m with heap := (m.heap.newFunction f).2 }
      [.ref (.function m.heap.functions.size)]
  | declares (t : Task) (d : Declaration) :
    Change past m t (.declares m.heap.classes.size d) (d.facts (displays past))
      { m with heap :=
        (m.heap.newClass ⟨d.name.lexeme, d.parent, Eval.methodTable d.closure d.methods⟩).2 }
      [.ref (.cls m.heap.classes.size)]
  /-- The scope of a block. -/
  | block (body : List Stmt) :
    Change past m (.stmt (.block body)) .enters [] (m.entering ⟨{}, some m.current⟩)
      [.task ((displays past).inner m.heap.scopes.size (.stmt (.block body))) m.heap.scopes.size
        (.stmts body)]
  /-- The scope of a call. -/
  | frame (f : Function) (origin : Origin) (vs : List Value) :
    Change past m (.body f origin vs) .enters
      (.callable ((displays past).kept origin f) f :: vs.flatMap Value.facts)
      (m.entering ⟨Eval.bindArguments f.decl.params vs, some f.closure⟩)
      [.task ((displays past).inner m.heap.scopes.size (.body f origin vs)) m.heap.scopes.size
        (.stmts f.decl.body)]
  /-- The scope of `this`. -/
  | receiver (t : Task) (d : Display) (f : Function) (o : InstanceId) :
    Change past m t .encloses [.method d f, .ref (.inst o)]
      { m with heap := (m.heap.newScope ⟨.singleton "this" (.inst o), some f.closure⟩).2 }
      [.ref (.scope m.heap.scopes.size), .callable (⟨.receiver f.decl, m.heap.scopes.size⟩ :: d)
        { f with closure := m.heap.scopes.size }]
  /-- The scope of `super`. -/
  | parent {name : Token} {e : Expr} {methods : List FunDecl} {c : ClassId}
    (hc : Declaring past m name e methods c) :
    Change past m (.stmt (.class_ name (some e) methods)) .encloses
      [.ref (.cls c), .bound m.current name.lexeme]
      { m with heap := (m.heap.newScope ⟨.singleton "super" (.cls c), some m.current⟩).2 }
      (.ref (.scope m.heap.scopes.size) :: methods.map fun d =>
        .method (⟨.parent name methods, m.heap.scopes.size⟩ :: (displays past).top)
          ⟨d, m.heap.scopes.size, d.isInitializer⟩)

/-- All changes but the entrance to a new scope are made where the task is done. -/
theorem Change.stays {past : List Moment} {m next : Machine} {t : Task} {act : Act}
    {needs gives : List Fact} (h : Change past m t act needs next gives) (hact : act ≠ .enters)
    (held : List Ref) : next.current = m.current ∧
      (displays (past ++ [⟨act, t, held, next⟩])).stack = (displays past).stack := by
  rw [displays_concat]
  cases h with
  | block => exact absurd rfl hact
  | frame => exact absurd rfl hact
  | _ => exact ⟨rfl, rfl⟩

/-- The moment at which a function has been created by its declaration. -/
def Moment.created (m : Machine) (decl : FunDecl) (held : List Ref) : Moment where
  act := .closes m.heap.functions.size .declaration
  task := .stmt (.function decl)
  held := held
  machine := { m with heap := (m.heap.newFunction ⟨decl, m.current, false⟩).2 }

/-- The moment at which the name of that function has been bound. -/
def Moment.introduced (m : Machine) (decl : FunDecl) (held : List Ref) : Moment where
  act := .binds
  task := .stmt (.function decl)
  held := held
  machine :=
    { m with
      heap := (m.heap.newFunction ⟨decl, m.current, false⟩).2.define m.current decl.name.lexeme
        (.function m.heap.functions.size) }

/-- The runtime errors that the evaluator ends with at work on a task. -/
inductive Fails (m : Machine) : Task → List Fact → RuntimeError → Prop where
  | unary {id : NodeId} {op : Token} {e : Expr} {v : Value} {f : Fault}
    (hf : applyUnary op v = .error f) : Fails m (.expr (.unary id op e)) [] (f.at_ op)
  | binary {id : NodeId} {a b : Expr} {op : Token} {v w : Value} {f : Fault}
    (hf : applyBinary op v w = .error f) : Fails m (.expr (.binary id a op b)) [] (f.at_ op)
  | undefined {t : Task} {name : Token} (ht : t.sought? = some name) :
    Fails m t [] ((Fault.undefinedVariable name.lexeme).at_ name)
  | noProperties {t : Task} {name : Token} (ht : t.property? = some name) :
    Fails m t [] (Fault.noProperties.at_ name)
  | noFields {t : Task} {name : Token} (ht : t.property? = some name) :
    Fails m t [] (Fault.noFields.at_ name)
  | property {t : Task} {name : Token} (ht : t.property? = some name) :
    Fails m t [] ((Fault.undefinedProperty name.lexeme).at_ name)
  | notCallable (paren : Token) (f : Value) (vs : List Value) :
    Fails m (.call paren f vs) [] (Fault.notCallable.at_ paren)
  | arity (paren : Token) (f : Value) (vs : List Value) (expected got : Nat) :
    Fails m (.call paren f vs) [] ((Fault.wrongArity expected got).at_ paren)
  | clock (paren : Token) (f : Value) (vs : List Value) :
    Fails m (.call paren f vs) [] (Fault.clockBeforeEpoch.at_ paren)
  | superclass (name : Token) (e : Expr) (methods : List FunDecl) :
    Fails m (.stmt (.class_ name (some e) methods)) []
      (Fault.superclassNotClass.at_ (Eval.superclassToken name e))
  | unresolved {id : NodeId} {keyword name : Token} (hd : m.distances.find? id = none) :
    Fails m (.expr (.super id keyword name)) [] (Fault.unresolvedSuper.at_ keyword)
  | notClass {id : NodeId} {keyword name : Token} {k : Nat} {v : Value}
    (hv : m.heap.getAt? m.current k keyword.lexeme = some v) (hnot : ∀ c, v ≠ .cls c) :
    Fails m (.expr (.super id keyword name)) [] (Fault.superNotClass.at_ keyword)
  | withoutThis {id : NodeId} {keyword name : Token} {c : ClassId}
    (hv : m.heap.getAt? m.current 0 keyword.lexeme = some (.cls c)) :
    Fails m (.expr (.super id keyword name)) [] (Fault.superWithoutThis.at_ keyword)
  | notInstance {id : NodeId} {keyword name : Token} {k : Nat} {c : ClassId} {v : Value}
    (hv : m.heap.getAt? m.current (k + 1) keyword.lexeme = some (.cls c))
    (hthis : m.heap.getAt? m.current k "this" = some v) (hnot : ∀ o, v ≠ .inst o) :
    Fails m (.expr (.super id keyword name)) [] (Fault.thisNotInstance.at_ keyword)
  | noThis {id : NodeId} {keyword name : Token} {k : Nat} {c : ClassId}
    (hv : m.heap.getAt? m.current (k + 1) keyword.lexeme = some (.cls c))
    (hthis : m.heap.getAt? m.current k "this" = none) :
    Fails m (.expr (.super id keyword name)) []
      ((Fault.undefinedVariable "this").at_ ⟨.keyword .this, "this", keyword.line⟩)
  | unbound {d : Display} {f : Function} {origin : Origin} {vs : List Value}
    (hinit : f.isInitializer = true) (hthis : m.heap.getLocal? f.closure "this" = none) :
    Fails m (.body f origin vs) [.callable d f] (Fault.unboundInitializer.at_ f.decl.name)

end Lox
