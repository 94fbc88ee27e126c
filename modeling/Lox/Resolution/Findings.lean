import Lox.Report
import Lox.Resolution.Distances
import Lox.Table

/-!
# Static resolution

Before a program runs, its scopes are worked out from its text. A walk over the tree finds, in
order, violations of the static rules and the distance of every use of a local variable.

The walk keeps the names of the open local scopes, innermost first. Each name is *declared* first
and *defined* once its initializer is behind it. Only declarations change the innermost scope;
expressions change none. Global variables are not tracked: with no open scope, nothing is declared,
and a use that no open scope knows is left without a distance.
-/

namespace Lox

/-- The static rules that a program can break. -/
inductive Violation where
  | redeclared
  | readInOwnInitializer
  | returnOutsideFunction
  | valueFromInitializer
  | thisOutsideClass
  | superOutsideClass
  | superWithoutSuperclass
  | inheritsFromItself
  deriving DecidableEq

namespace Violation

def message : Violation → String
  | redeclared => "Already a variable with this name in this scope."
  | readInOwnInitializer => "Can't read local variable in its own initializer."
  | returnOutsideFunction => "Can't return from top-level code."
  | valueFromInitializer => "Can't return a value from an initializer."
  | thisOutsideClass => "Can't use 'this' outside of a class."
  | superOutsideClass => "Can't use 'super' outside of a class."
  | superWithoutSuperclass => "Can't use 'super' in a class with no superclass."
  | inheritsFromItself => "A class can't inherit from itself."

end Violation

/-- What the walk says about one place of a program. -/
inductive Finding where
  | violation (token : Token) (rule : Violation)
  | distance (id : NodeId) (distance : Nat)
  deriving DecidableEq

namespace Finding

def report? : Finding → Option Report
  | violation token rule => some (.resolution token rule.message)
  | distance _ _ => none

/-- Enter a finding into the table of distances. -/
def record (d : Distances) : Finding → Distances
  | violation _ _ => d
  | distance id steps => d.record id steps

end Finding

/-- The code that a place belongs to. -/
inductive FunctionContext where
  | none
  | function
  | method
  | initializer
  deriving DecidableEq

/-- The class that a place belongs to. -/
inductive ClassContext where
  | none
  | plain
  | subclass
  deriving DecidableEq

/-- What surrounds a place in a program. -/
structure Context where
  function : FunctionContext := .none
  cls : ClassContext := .none
  deriving DecidableEq

/-! ### Open scopes -/

/-- The names of one scope; a name is false from its declaration to its definition. -/
abbrev StaticScope := Table Bool

/-- The open local scopes, innermost first. -/
abbrev StaticScopes := List StaticScope

namespace StaticScopes

/-- The first open scope that knows a name, counted from the innermost. -/
def depthOf? (scopes : StaticScopes) (name : String) : Option Nat :=
  scopes.findIdx? fun s => s.contains name

/-- Declare a name in the innermost scope. A name that is there already is a violation and stays as
it is. -/
def declare : StaticScopes → Token → List Finding × StaticScopes
  | [], _ => ([], [])
  | s :: outer, name =>
    if s.contains name.lexeme then ([.violation name .redeclared], s :: outer)
    else ([], s.insert name.lexeme false :: outer)

def define : StaticScopes → Token → StaticScopes
  | [], _ => []
  | s :: outer, name => s.insert name.lexeme true :: outer

/-- Declare and define a name at once. -/
def introduce (scopes : StaticScopes) (name : Token) : List Finding × StaticScopes :=
  let (findings, declared) := scopes.declare name
  (findings, declared.define name)

/-- Introduce names one after the other. -/
def introduceAll (scopes : StaticScopes) : List Token → List Finding × StaticScopes
  | [] => ([], scopes)
  | name :: names =>
    let (first, introduced) := scopes.introduce name
    let (rest, final) := introduced.introduceAll names
    (first ++ rest, final)

/-- The innermost scope knows a name that is not yet defined. -/
def isPending : StaticScopes → String → Bool
  | [], _ => false
  | s :: _, name => s.find? name == some false

/-- The distance of a use of a name, unless it is global. -/
def useOf (scopes : StaticScopes) (id : NodeId) (name : Token) : List Finding :=
  match scopes.depthOf? name.lexeme with
  | some depth => [.distance id depth]
  | none => []

end StaticScopes

/-! ### The walk -/

/-- Blame a token if a rule is broken. -/
def violationIf (broken : Bool) (token : Token) (rule : Violation) : List Finding :=
  if broken then [.violation token rule] else []

mutual

def Expr.findings (ctx : Context) (scopes : StaticScopes) : Expr → List Finding
  | .literal _ _ => []
  | .grouping _ inner => inner.findings ctx scopes
  | .unary _ _ right => right.findings ctx scopes
  | .binary _ left _ right => left.findings ctx scopes ++ right.findings ctx scopes
  | .logical _ left _ right => left.findings ctx scopes ++ right.findings ctx scopes
  | .var id name =>
    violationIf (scopes.isPending name.lexeme) name .readInOwnInitializer ++ scopes.useOf id name
  | .assign id name value => value.findings ctx scopes ++ scopes.useOf id name
  | .call _ callee _ args => callee.findings ctx scopes ++ findingsOfArgs ctx scopes args
  | .get _ object _ => object.findings ctx scopes
  | .set _ object _ value => value.findings ctx scopes ++ object.findings ctx scopes
  | .this id keyword =>
    if ctx.cls = .none then [.violation keyword .thisOutsideClass] else scopes.useOf id keyword
  | .super id keyword _ =>
    violationIf (ctx.cls = .none) keyword .superOutsideClass ++
      violationIf (ctx.cls = .plain) keyword .superWithoutSuperclass ++ scopes.useOf id keyword
termination_by structural e => e

def findingsOfArgs (ctx : Context) (scopes : StaticScopes) : List Expr → List Finding
  | [] => []
  | e :: es => e.findings ctx scopes ++ findingsOfArgs ctx scopes es
termination_by structural es => es

end

namespace Expr

/-- The findings of an expression that may be missing. -/
def findingsOf? (ctx : Context) (scopes : StaticScopes) : Option Expr → List Finding
  | some e => e.findings ctx scopes
  | none => []

/-- A class that names itself as its superclass. -/
def selfInheritance (name : Token) : Expr → List Finding
  | .var _ parent => violationIf (parent.lexeme == name.lexeme) parent .inheritsFromItself
  | _ => []

end Expr

/-- The superclass of a class in its own right: the self-inheritance rule and the findings of the
expression. -/
def superclassFindings (ctx : Context) (scopes : StaticScopes) (name : Token) :
    Option Expr → List Finding
  | some parent => parent.selfInheritance name ++ parent.findings ⟨ctx.function, .subclass⟩ scopes
  | none => []

/-- The scopes that surround the methods of a class: one for `super` if there is a superclass, and
one for `this`. -/
def methodScopes (scopes : StaticScopes) (hasSuper : Bool) : StaticScopes :=
  .singleton "this" true :: (if hasSuper then .singleton "super" true :: scopes else scopes)

def methodContext (decl : FunDecl) : FunctionContext :=
  if decl.isInitializer then .initializer else .method

/-- The rules for `return`, and the findings of its value. -/
def returnFindings (ctx : Context) (scopes : StaticScopes) (keyword : Token) (value : Option Expr) :
    List Finding :=
  violationIf (ctx.function = .none) keyword .returnOutsideFunction ++
    violationIf (ctx.function = .initializer ∧ value.isSome) keyword .valueFromInitializer ++
    Expr.findingsOf? ctx scopes value

mutual

/-- The findings of a statement, and the open scopes after it. -/
def Stmt.resolve (ctx : Context) (scopes : StaticScopes) : Stmt → List Finding × StaticScopes
  | .expression e => (e.findings ctx scopes, scopes)
  | .print e => (e.findings ctx scopes, scopes)
  | .var name init =>
    let (first, declared) := scopes.declare name
    (first ++ Expr.findingsOf? ctx declared init, declared.define name)
  | .block body => ((resolveAll ctx ({} :: scopes) body).1, scopes)
  | .ifElse cond thenBranch none =>
    let (inThen, afterThen) := thenBranch.resolve ctx scopes
    (cond.findings ctx scopes ++ inThen, afterThen)
  | .ifElse cond thenBranch (some elseBranch) =>
    let (inThen, afterThen) := thenBranch.resolve ctx scopes
    let (inElse, afterElse) := elseBranch.resolve ctx afterThen
    (cond.findings ctx scopes ++ inThen ++ inElse, afterElse)
  | .while_ cond body =>
    let (inBody, afterBody) := body.resolve ctx scopes
    (cond.findings ctx scopes ++ inBody, afterBody)
  | .function decl =>
    let (first, introduced) := scopes.introduce decl.name
    (first ++ decl.resolve ⟨.function, ctx.cls⟩ introduced, introduced)
  | .return_ keyword value => (returnFindings ctx scopes keyword value, scopes)
  | .class_ name superclass methods =>
    let (first, introduced) := scopes.introduce name
    let cls := if superclass.isSome then .subclass else .plain
    (first ++ superclassFindings ctx introduced name superclass ++
      resolveMethods cls (methodScopes introduced superclass.isSome) methods, introduced)
termination_by structural s => s

def resolveAll (ctx : Context) (scopes : StaticScopes) : List Stmt → List Finding × StaticScopes
  | [] => ([], scopes)
  | s :: rest =>
    let (first, after) := s.resolve ctx scopes
    let (others, final) := resolveAll ctx after rest
    (first ++ others, final)
termination_by structural body => body

/-- The findings in a function, whose parameters and body share one scope. -/
def FunDecl.resolve (ctx : Context) (scopes : StaticScopes) : FunDecl → List Finding
  | .mk _ params body =>
    let (inParams, inner) := StaticScopes.introduceAll ({} :: scopes) params
    inParams ++ (resolveAll ctx inner body).1
termination_by structural d => d

def resolveMethods (cls : ClassContext) (scopes : StaticScopes) : List FunDecl → List Finding
  | [] => []
  | d :: ds => d.resolve ⟨methodContext d, cls⟩ scopes ++ resolveMethods cls scopes ds
termination_by structural ds => ds

end

/-- The findings of a program at global scope. -/
def programFindings (statements : List Stmt) : List Finding := (resolveAll {} [] statements).1

/-- The findings of a single expression at global scope. -/
def expressionFindings (e : Expr) : List Finding := e.findings {} []

/-- The reports of the violations among some findings. -/
def findingReports (findings : List Finding) : List Report := findings.filterMap Finding.report?

/-- Enter all findings into a table of distances. -/
def Distances.recordAll (d : Distances) (findings : List Finding) : Distances :=
  findings.foldl Finding.record d

end Lox
