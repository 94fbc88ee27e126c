import Lox.Evaluation.Operators
import Lox.Machine

/-!
# Evaluation

Evaluation of expressions and execution of statements, by recursion on a fuel argument that every
step of the recursion uses up by one. Fuel is no part of the language: a computation that ends with
some fuel ends in the same way with more.

A call runs the body of a function in a new scope inside the scope that the function closes over,
not inside that of its caller. Calling a class creates an instance and runs its initializer, if it
has one.
-/

namespace Lox

namespace Eval

/-! ### Properties and classes -/

/-- The property of a value: a field, or else a method bound to the instance. -/
def getProperty (object : Value) (name : Token) : Eval Value :=
  match object with
  | .inst id => do
    let fields ← inspect fun h => (h.inst id).fields
    match fields.find? name.lexeme with
    | some v => return v
    | none =>
    match ← inspect fun h => h.findMethod? (h.inst id).cls name.lexeme with
    | some method => boundMethod method id
    | none => fault (.undefinedProperty name.lexeme) name
  | _ => fault .noProperties name

/-- The instance whose field is to be set. -/
def fieldOwner (object : Value) (name : Token) : Eval InstanceId :=
  match object with
  | .inst id => pure id
  | _ => fault .noFields name

/-- The class that `super` stands for. -/
def superclassAt (distance : Nat) (keyword : Token) : Eval ClassId := fun m =>
  match m.heap.getAt? m.current distance keyword.lexeme with
  | some (.cls id) => .ok id m
  | some _ => .error (Fault.superNotClass.at_ keyword) m
  | none => .error ((Fault.undefinedVariable keyword.lexeme).at_ keyword) m

/-- The instance that `this` stands for, one scope inside that of `super`. -/
def thisInside (distance : Nat) (keyword : Token) : Eval InstanceId := fun m =>
  match distance with
  | 0 => .error (Fault.superWithoutThis.at_ keyword) m
  | inner + 1 =>
    match m.heap.getAt? m.current inner "this" with
    | some (.inst id) => .ok id m
    | some _ => .error (Fault.thisNotInstance.at_ keyword) m
    | none => .error ((Fault.undefinedVariable "this").at_ ⟨.keyword .this, "this", keyword.line⟩) m

/-- A method of the superclass, bound to `this`. -/
def superMethod (id : NodeId) (keyword method : Token) : Eval Value := do
  match ← fun m => .ok (m.distances.find? id) m with
  | none => fault .unresolvedSuper keyword
  | some distance =>
    let parent ← superclassAt distance keyword
    let this ← thisInside distance keyword
    match ← inspect fun h => h.findMethod? parent method.lexeme with
    | some f => boundMethod f this
    | none => fault (.undefinedProperty method.lexeme) method

/-- The token to blame for a superclass that is none. -/
def superclassToken (name : Token) : Expr → Token
  | .var _ parent => parent
  | _ => name

/-- The class that a superclass expression has given. -/
def asSuperclass (blamed : Token) : Value → Eval ClassId
  | .cls id => pure id
  | _ => fault .superclassNotClass blamed

/-- The scope that the methods of a class close over: a new one with `super` if there is a
superclass, and else the current one. -/
def methodClosure : Option ClassId → Eval ScopeId
  | some parent => do newScope (← currentScope) (.singleton "super" (.cls parent))
  | none => currentScope

/-- The methods of a class. Of two with the same name the later one counts. -/
def methodTable (closure : ScopeId) (methods : List FunDecl) : Table Function :=
  Table.insertAll {} (methods.map fun d => (d.name.lexeme, ⟨d, closure, d.isInitializer⟩))

/-- Create a class and bind it to its name. The name is bound before the class exists. -/
def defineClass (name : Token) (parent : Option ClassId) (methods : List FunDecl) : Eval Unit := do
  define name.lexeme .nil
  let closure ← methodClosure parent
  let cls ← newClass ⟨name.lexeme, parent, methodTable closure methods⟩
  assign name cls

/-! ### Calls -/

/-- The parameters of a function with the arguments of a call, as far as both go. -/
def bindArguments (params : List Token) (args : List Value) : Table Value :=
  Table.insertAll {} ((params.map (·.lexeme)).zip args)

def checkArity (paren : Token) (expected got : Nat) : Eval Unit :=
  if got = expected then pure () else fault (.wrongArity expected got) paren

/-- What a call of an initializer gives: the instance it is bound to. -/
def boundInstance (f : Function) : Eval Value := fun m =>
  match m.heap.getLocal? f.closure "this" with
  | some v => .ok v m
  | none => .error (Fault.unboundInitializer.at_ f.decl.name) m

/-- Call a native function. The call is to blame if it fails. -/
def callNative (paren : Token) : Native → Eval Value
  | .clock => do
    match ← readClock with
    | some reading => return .number reading
    | none => fault .clockBeforeEpoch paren

/-! ### Evaluation and execution -/

mutual

def evaluate : Nat → Expr → Eval Value
  | 0, _ => outOfFuel
  | n + 1, e =>
    match e with
    | .literal _ value => pure value.toValue
    | .grouping _ inner => evaluate n inner
    | .unary _ op right => do
      let v ← evaluate n right
      ofExcept op (applyUnary op v)
    | .binary _ left op right => do
      let a ← evaluate n left
      let b ← evaluate n right
      ofExcept op (applyBinary op a b)
    | .logical _ left op right => do
      let a ← evaluate n left
      if decidesAlone op a then return a else evaluate n right
    | .var id name => readVariable id name
    | .assign id name value => do
      let v ← evaluate n value
      writeVariable id name v
      return v
    | .call _ callee paren args => do
      let f ← evaluate n callee
      let vs ← evaluateAll n args
      call n paren f vs
    | .get _ object name => do
      let v ← evaluate n object
      getProperty v name
    | .set _ object name value => do
      let owner ← evaluate n object
      let id ← fieldOwner owner name
      let v ← evaluate n value
      setField id name.lexeme v
      return v
    | .this id keyword => readVariable id keyword
    | .super id keyword method => superMethod id keyword method

/-- Evaluate expressions from left to right. -/
def evaluateAll : Nat → List Expr → Eval (List Value)
  | 0, _ => outOfFuel
  | _ + 1, [] => pure []
  | n + 1, e :: es => do
    let v ← evaluate n e
    let vs ← evaluateAll n es
    return v :: vs

/-- Call a value. -/
def call : Nat → Token → Value → List Value → Eval Value
  | 0, _, _, _ => outOfFuel
  | n + 1, paren, callee, args =>
    match callee with
    | .native f => do
      checkArity paren f.arity args.length
      callNative paren f
    | .function id => do
      let f ← inspect fun h => h.function id
      checkArity paren f.arity args.length
      callFunction n f args
    | .cls id => do
      let initializer ← inspect fun h => h.findMethod? id FunDecl.initializerName
      checkArity paren ((initializer.map Function.arity).getD 0) args.length
      let this ← newInstance id
      match initializer with
      | some f => do
        let _ ← callFunction n (← bindThis f this) args
        return .inst this
      | none => return .inst this
    | _ => fault .notCallable paren

/-- Run a function. Arguments without a parameter are dropped, and parameters without an argument
are left unbound. -/
def callFunction : Nat → Function → List Value → Eval Value
  | 0, _, _ => outOfFuel
  | n + 1, f, args => do
    let frame ← newScope f.closure (bindArguments f.decl.params args)
    let result ← catchReturn (withScope frame (executeAll n f.decl.body))
    if f.isInitializer then boundInstance f else return result

def execute : Nat → Stmt → Eval Unit
  | 0, _ => outOfFuel
  | n + 1, s =>
    match s with
    | .expression e => do
      let _ ← evaluate n e
      return ()
    | .print e => do
      let v ← evaluate n e
      print v
    | .var name none => define name.lexeme .nil
    | .var name (some init) => do
      let v ← evaluate n init
      define name.lexeme v
    | .block body => do
      let inner ← newScope (← currentScope) {}
      withScope inner (executeAll n body)
    | .ifElse cond thenBranch elseBranch => do
      let v ← evaluate n cond
      if v.isTruthy then execute n thenBranch
      else
        match elseBranch with
        | some s => execute n s
        | none => return ()
    | .while_ cond body => loop n cond body
    | .function decl => do
      let f ← newFunction ⟨decl, ← currentScope, false⟩
      define decl.name.lexeme f
    | .return_ keyword none => leave keyword .nil
    | .return_ keyword (some value) => do
      let v ← evaluate n value
      leave keyword v
    | .class_ name none methods => defineClass name none methods
    | .class_ name (some superclass) methods => do
      let v ← evaluate n superclass
      let parent ← asSuperclass (superclassToken name superclass) v
      defineClass name (some parent) methods

/-- Repeat a statement as long as a condition holds. -/
def loop : Nat → Expr → Stmt → Eval Unit
  | 0, _, _ => outOfFuel
  | n + 1, cond, body => do
    let v ← evaluate n cond
    if v.isTruthy then
      execute n body
      loop n cond body
    else return ()

/-- Execute statements one after the other. -/
def executeAll : Nat → List Stmt → Eval Unit
  | 0, _ => outOfFuel
  | _ + 1, [] => pure ()
  | n + 1, s :: rest => do
    execute n s
    executeAll n rest

end

end Eval

/-- How a program ends: with all its statements executed, or at a runtime error. A `return` outside
all calls is such an error. -/
def interpret (fuel : Nat) (statements : List Stmt) (m : Machine) :
    Option (Option RuntimeError × Machine) :=
  match Eval.executeAll fuel statements m with
  | .ok _ next => some (none, next)
  | .error e next => some (some e, next)
  | .returned keyword _ next => some (some (Fault.escapedReturn.at_ keyword), next)
  | .outOfFuel => none

end Lox
