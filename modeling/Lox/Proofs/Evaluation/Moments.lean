import Lox.Proofs.Evaluation.Tasks

/-!
# The moments of a run

`moments` lists the states that an evaluation goes through. There is one whenever work on a task
begins and one when it ends, and one after every single change of the machine in between. It
computes nothing on its own: every state in the list is one that `Eval.evaluate`, `Eval.execute` and
their parts have reached.

Each moment says what has just been done (`Act`), so that all that a run does can be read off the
one list: the lines it prints, the properties it reads and writes, the scopes of its calls, the
variables it refers to.

Besides the machine, the evaluator has handles in its own hands: the left operand while the right
one is evaluated, the callee and the first arguments while the others are, the scope to go back to
when a block is left. A `Moment` lists them as well.
-/

namespace Lox

/-- An execution of the declaration of a class: its name, the superclass, the scope that the methods
close over, and the methods in the order of the class body. -/
structure Declaration where
  name : Token
  parent : Option ClassId
  closure : ScopeId
  methods : List FunDecl

/-- What has been done at a moment. -/
inductive Act where
  /-- No program runs. -/
  | rests
  /-- Work on the task begins. -/
  | begins
  /-- Work on the task would begin, but there is no fuel for it. -/
  | stops
  /-- Work on the task has ended. -/
  | ends
  /-- A scope has been created for the task and is the current one now. -/
  | enters
  /-- That scope has been left, and the one from before is the current one again. -/
  | leaves
  /-- A scope that closures lie in has been created. -/
  | encloses
  /-- A function has been created. -/
  | closes (g : FunctionId) (origin : Origin)
  | declares (c : ClassId) (d : Declaration)
  | creates (o : InstanceId) (c : ClassId)
  /-- A name is about to be changed. -/
  | reaches
  /-- A name has been bound or changed. -/
  | binds
  /-- A property is about to be read. -/
  | reads (o : InstanceId) (name : Token)
  /-- A property has been set. -/
  | writes (o : InstanceId) (name : String) (v : Value) (before : Machine)
  | prints (v : Value)
  /-- The clock has been read. -/
  | ticks

/-- A state of a run: what has just been done, what the evaluator is at work on, the handles it
holds on to, and the machine. -/
structure Moment where
  act : Act
  task : Task
  held : List Ref
  machine : Machine

variable {α β : Type}

/-- The machine at the end of a computation, if it ends, satisfies `P`. -/
def Outcome.Leaves (P : Machine → Prop) : Outcome α → Prop
  | .ok _ m => P m
  | .error _ m => P m
  | .returned _ _ m => P m
  | .outOfFuel => True

theorem Outcome.Leaves.mono {P Q : Machine → Prop} {o : Outcome α} (h : o.Leaves P)
    (hPQ : ∀ m, P m → Q m) : o.Leaves Q := by
  cases o with
  | ok a m => exact hPQ m h
  | error e m => exact hPQ m h
  | returned t v m => exact hPQ m h
  | outOfFuel => trivial

/-- The handles that a computation ends with, and the machine. -/
def Outcome.ending (refs : α → List Ref) : Outcome α → Option (List Ref × Machine)
  | .ok a m => some (refs a, m)
  | .error _ m => some ([], m)
  | .returned _ v m => some (v.refs, m)
  | .outOfFuel => none

/-- What a computation leaves behind, in terms of how it ends. -/
theorem Outcome.leaves_iff {o : Outcome α} {P : Machine → Prop} (refs : α → List Ref) :
    o.Leaves P ↔ ∀ q ∈ o.ending refs, P q.2 := by
  cases o <;> simp [Outcome.Leaves, Outcome.ending]

/-- The moments of a part of a run, by the handles that its surroundings hold on to and the machine
at its start. -/
abbrev Seen := List Ref → Machine → List Moment

namespace Seen

def nothing : Seen := fun _ _ => []

/-- The moments of a part during which more handles are held on to. -/
def holding (refs : List Ref) (w : Seen) : Seen := fun held m => w (refs ++ held) m

/-- The moments of a computation, and then those of what follows it if it gives a value. -/
def andThen (w : Seen) (p : Eval α) (f : α → Seen) : Seen := fun held m =>
  w held m ++
    match p m with
    | .ok a next => f a held next
    | _ => []

theorem andThen_nothing (w : Seen) (p : Eval α) : w.andThen p (fun _ => nothing) = w := by
  funext held m
  unfold andThen nothing
  split <;> exact List.append_nil _

/-- The moments of what follows a computation that changes nothing. -/
def after (p : Eval α) (f : α → Seen) : Seen := nothing.andThen p f

/-- The moment before a part of a run. -/
def noting (t : Task) (act : Act) (w : Seen) : Seen := fun held m =>
  ⟨act, t, held, m⟩ :: w held m

/-- The moment after a single change. What is done may depend on the machine before. -/
def change (t : Task) (act : Machine → Act) (refs : α → List Ref) (p : Eval α) : Seen :=
  fun held m =>
    match p m with
    | .ok a next => [⟨act m, t, refs a ++ held, next⟩]
    | _ => []

/-- The moments of a native function at work. Its effect comes before it may fail. -/
def callNative (t : Task) : Native → Seen
  | .clock =>
    (change t (fun _ => .ticks) (fun _ => []) Eval.readClock).andThen Eval.readClock
      fun _ => nothing

/-- The moment at which the scope that code has run in is left, if the code ends. -/
def leaving (t : Task) (outer : ScopeId) (p : Eval Unit) : Seen := fun held m =>
  match (p m).ending fun _ => [] with
  | some (result, next) => [⟨.leaves, t, result ++ held, { next with current := outer }⟩]
  | none => []

/-- The moments of code in a scope of its own. The scope to go back to is held on to. -/
def inside (t : Task) (enclosing : ScopeId) (values : Table Value) (p : Eval Unit) (w : Seen) :
    Seen := fun held m =>
  match Eval.newScope enclosing values m with
  | .ok s next =>
    let entered := { next with current := s }
    ⟨.enters, t, .scope m.current :: held, entered⟩ ::
      (w (.scope m.current :: held) entered ++ leaving t m.current p held entered)
  | _ => []

/-- The moment at the end of a computation, if it ends. -/
def ending (t : Task) (refs : α → List Ref) (p : Eval α) : Seen := fun held m =>
  match (p m).ending refs with
  | some (result, next) => [⟨.ends, t, result ++ held, next⟩]
  | none => []

/-- The moments of a task: its beginning, those in between, and its end. -/
def task (t : Task) (refs : α → List Ref) (p : Eval α) (w : Seen) : Seen := fun held m =>
  ⟨.begins, t, t.refs ++ held, m⟩ :: (w (t.refs ++ held) m ++ ending t refs p held m)

/-! ### Properties and classes -/

/-- The moment at which a scope is created that closures will lie in. -/
def newScope (t : Task) (enclosing : ScopeId) (values : Table Value) : Seen :=
  change t (fun _ => .encloses) (fun s => [.scope s]) (Eval.newScope enclosing values)

/-- The moment at which a function is created. -/
def newFunction (t : Task) (origin : Origin) (f : Function) : Seen :=
  change t (fun m => .closes m.heap.functions.size origin) Value.refs (Eval.newFunction f)

/-- The moment at which an instance is created. -/
def newInstance (t : Task) (c : ClassId) : Seen :=
  change t (fun m => .creates m.heap.instances.size c) (fun i => [.inst i]) (Eval.newInstance c)

/-- The moment at which a name is bound. -/
def binding (t : Task) (p : Eval Unit) : Seen := change t (fun _ => .binds) (fun _ => []) p

/-- The moments at which the method that a class has is bound to an instance, as a new function. -/
def boundMethod (t : Task) (c : ClassId) (name : String) (method : Function) (this : InstanceId) :
    Seen :=
  let values := .singleton "this" (.inst this)
  (newScope t method.closure values).andThen (Eval.newScope method.closure values) fun closure =>
    newFunction t (.method c name) { method with closure }

/-- The moments of an access to a property, which may bind a method. -/
def getProperty (t : Task) : Value → Token → Seen
  | .inst id, name =>
    noting t (.reads id name) <| after (Eval.inspect fun h => (h.inst id).fields) fun fields =>
      match fields.find? name.lexeme with
      | some _ => nothing
      | none =>
        after (Eval.inspect fun h => h.findMethod? (h.inst id).cls name.lexeme) fun method =>
          match method with
          | some method => fun held m =>
            boundMethod t (m.heap.inst id).cls name.lexeme method id held m
          | none => nothing
  | _, _ => nothing

/-- The moments of an access to a method of the superclass, which binds it. -/
def superMethod (t : Task) (id : NodeId) (keyword method : Token) : Seen :=
  after (fun m => .ok (m.distances.find? id) m) fun distance =>
    match distance with
    | none => nothing
    | some distance =>
      after (Eval.superclassAt distance keyword) fun parent =>
        after (Eval.thisInside distance keyword) fun this =>
          after (Eval.inspect fun h => h.findMethod? parent method.lexeme) fun f =>
            match f with
            | some f => boundMethod t parent method.lexeme f this
            | none => nothing

/-- The moment at which the scope of `super` is created, if there is one. -/
def methodClosure (t : Task) : Option ClassId → Seen
  | some parent =>
    after Eval.currentScope fun outer => newScope t outer (.singleton "super" (.cls parent))
  | none => nothing

/-- The moment at which a class is created. -/
def newClass (t : Task) (d : Declaration) : Seen :=
  change t (fun m => .declares m.heap.classes.size d) Value.refs
    (Eval.newClass ⟨d.name.lexeme, d.parent, Eval.methodTable d.closure d.methods⟩)

/-- The moments at which a class is created and bound to its name. -/
def defineClass (t : Task) (name : Token) (parent : Option ClassId) (methods : List FunDecl) :
    Seen :=
  (binding t (Eval.define name.lexeme .nil)).andThen (Eval.define name.lexeme .nil) fun _ =>
  (methodClosure t parent).andThen (Eval.methodClosure parent) fun closure =>
  (newClass t ⟨name, parent, closure, methods⟩).andThen
    (Eval.newClass ⟨name.lexeme, parent, Eval.methodTable closure methods⟩) fun c =>
  holding c.refs (binding t (Eval.assign name c))

/-! ### Parts of tasks

What happens between the beginning and the end of a task, by the moments `go` of the tasks that it
consists of. -/

section Parts

variable (n : Nat) (go : Task → Seen)

def ofExpr (e : Expr) : Seen :=
  match e with
  | .literal _ _ => nothing
  | .grouping _ inner => go (.expr inner)
  | .unary _ _ right => go (.expr right)
  | .binary _ left _ right =>
    (go (.expr left)).andThen (Eval.evaluate n left) fun a => holding a.refs (go (.expr right))
  | .logical _ left op right =>
    (go (.expr left)).andThen (Eval.evaluate n left) fun a =>
      if decidesAlone op a then nothing else go (.expr right)
  | .var _ _ => nothing
  | .assign id name value =>
    (go (.expr value)).andThen (Eval.evaluate n value) fun v =>
      holding v.refs <|
        noting (.expr e) .reaches (binding (.expr e) (Eval.writeVariable id name v))
  | .call _ callee paren args =>
    (go (.expr callee)).andThen (Eval.evaluate n callee) fun f =>
      holding f.refs <|
        (go (.args args)).andThen (Eval.evaluateAll n args) fun vs => go (.call paren f vs)
  | .get _ object name =>
    (go (.expr object)).andThen (Eval.evaluate n object) fun v =>
      holding v.refs (getProperty (.expr e) v name)
  | .set _ object name value =>
    (go (.expr object)).andThen (Eval.evaluate n object) fun owner =>
      after (Eval.fieldOwner owner name) fun id =>
        holding [.inst id] <|
          (go (.expr value)).andThen (Eval.evaluate n value) fun v =>
            holding v.refs <|
              change (.expr e) (.writes id name.lexeme v) (fun _ => [])
                (Eval.setField id name.lexeme v)
  | .this _ _ => nothing
  | .super id keyword method => superMethod (.expr e) id keyword method

def ofArgs : List Expr → Seen
  | [] => nothing
  | e :: es =>
    (go (.expr e)).andThen (Eval.evaluate n e) fun v => holding v.refs (go (.args es))

def ofCall (paren : Token) (callee : Value) (args : List Value) : Seen :=
  match callee with
  | .native f =>
    after (Eval.checkArity paren f.arity args.length) fun _ =>
      callNative (.call paren callee args) f
  | .function id =>
    after (Eval.inspect fun h => h.function id) fun f =>
      after (Eval.checkArity paren f.arity args.length) fun _ => go (.body f (.object id) args)
  | .cls id =>
    after (Eval.inspect fun h => h.findMethod? id FunDecl.initializerName) fun initializer =>
      after (Eval.checkArity paren ((initializer.map Function.arity).getD 0) args.length) fun _ =>
      (newInstance (.call paren callee args) id).andThen (Eval.newInstance id) fun this =>
      holding [.inst this] <|
        match initializer with
        | some f =>
          let values := .singleton "this" (.inst this)
          (newScope (.call paren callee args) f.closure values).andThen
            (Eval.newScope f.closure values) fun closure =>
              go (.body { f with closure } (.method id FunDecl.initializerName) args)
        | none => nothing
  | _ => nothing

def ofBody (f : Function) (origin : Origin) (args : List Value) : Seen :=
  inside (.body f origin args) f.closure (Eval.bindArguments f.decl.params args)
    (Eval.executeAll n f.decl.body) (go (.stmts f.decl.body))

def ofStmt (s : Stmt) : Seen :=
  match s with
  | .expression e => go (.expr e)
  | .print e =>
    (go (.expr e)).andThen (Eval.evaluate n e) fun v =>
      holding v.refs (change (.stmt s) (fun _ => .prints v) (fun _ => []) (Eval.print v))
  | .var name none => binding (.stmt s) (Eval.define name.lexeme .nil)
  | .var name (some init) =>
    (go (.expr init)).andThen (Eval.evaluate n init) fun v =>
      holding v.refs (binding (.stmt s) (Eval.define name.lexeme v))
  | .block body =>
    after Eval.currentScope fun outer =>
      inside (.stmt s) outer {} (Eval.executeAll n body) (go (.stmts body))
  | .ifElse cond thenBranch elseBranch =>
    (go (.expr cond)).andThen (Eval.evaluate n cond) fun v =>
      if v.isTruthy then go (.stmt thenBranch)
      else
        match elseBranch with
        | some s => go (.stmt s)
        | none => nothing
  | .while_ cond body => go (.loop cond body)
  | .function decl =>
    after Eval.currentScope fun closure =>
      (newFunction (.stmt s) .declaration ⟨decl, closure, false⟩).andThen
        (Eval.newFunction ⟨decl, closure, false⟩) fun f =>
        holding f.refs (binding (.stmt s) (Eval.define decl.name.lexeme f))
  | .return_ _ none => nothing
  | .return_ _ (some value) => go (.expr value)
  | .class_ name none methods => defineClass (.stmt s) name none methods
  | .class_ name (some superclass) methods =>
    (go (.expr superclass)).andThen (Eval.evaluate n superclass) fun v =>
      holding v.refs <|
        after (Eval.asSuperclass (Eval.superclassToken name superclass) v) fun parent =>
          defineClass (.stmt s) name (some parent) methods

def ofLoop (cond : Expr) (body : Stmt) : Seen :=
  (go (.expr cond)).andThen (Eval.evaluate n cond) fun v =>
    if v.isTruthy then
      (go (.stmt body)).andThen (Eval.execute n body) fun _ => go (.loop cond body)
    else nothing

def ofStmts : List Stmt → Seen
  | [] => nothing
  | s :: rest => (go (.stmt s)).andThen (Eval.execute n s) fun _ => go (.stmts rest)

end Parts

end Seen

/-! ### Tasks -/

open Seen in
/-- The moments of a task with some fuel. -/
def moments : Nat → Task → Seen
  | 0, t => fun held m => [⟨.stops, t, t.refs ++ held, m⟩]
  | n + 1, .expr e =>
    task (.expr e) Value.refs (Eval.evaluate (n + 1) e) (ofExpr n (moments n) e)
  | n + 1, .args es =>
    task (.args es) (List.flatMap Value.refs) (Eval.evaluateAll (n + 1) es)
      (ofArgs n (moments n) es)
  | n + 1, .call paren callee args =>
    task (.call paren callee args) Value.refs (Eval.call (n + 1) paren callee args)
      (ofCall (moments n) paren callee args)
  | n + 1, .body f origin args =>
    task (.body f origin args) Value.refs (Eval.callFunction (n + 1) f args)
      (ofBody n (moments n) f origin args)
  | n + 1, .stmt s =>
    task (.stmt s) (fun _ => []) (Eval.execute (n + 1) s) (ofStmt n (moments n) s)
  | n + 1, .loop cond body =>
    task (.loop cond body) (fun _ => []) (Eval.loop (n + 1) cond body)
      (ofLoop n (moments n) cond body)
  | n + 1, .stmts body =>
    task (.stmts body) (fun _ => []) (Eval.executeAll (n + 1) body)
      (ofStmts n (moments n) body)

/-- The first moment of a task is its beginning. -/
theorem exists_begun (n : Nat) (t : Task) (held : List Ref) (m : Machine) :
    ∃ x ∈ moments n t held m, x.task = t ∧ x.machine = m := by
  cases n with
  | zero => exact ⟨_, List.mem_cons_self, rfl, rfl⟩
  | succ n => cases t <;> exact ⟨_, List.mem_cons_self, rfl, rfl⟩

end Lox
