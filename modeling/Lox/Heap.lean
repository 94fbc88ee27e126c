import Lox.Table
import Lox.Value

/-!
# The heap

Scopes, functions, classes and instances live in the heap, each kind in an array in order of
creation, and are referred to by their index. Nothing is ever removed. A scope is created after the
scope around it and a class after its superclass, so walks outwards go to smaller indices; the walks
check this, which makes them end on any heap.
-/

namespace Lox

/-- Names and their values, and the scope around them. -/
structure Scope where
  values : Table Value := {}
  enclosing : Option ScopeId := none
  deriving DecidableEq, Inhabited

/-- A declared function with the scope it closes over. -/
structure Function where
  decl : FunDecl
  closure : ScopeId
  isInitializer : Bool
  deriving Inhabited

structure Class where
  name : String
  superclass : Option ClassId
  methods : Table Function
  deriving Inhabited

structure Instance where
  cls : ClassId
  fields : Table Value := {}
  deriving Inhabited

structure Heap where
  scopes : Array Scope := #[]
  functions : Array Function := #[]
  classes : Array Class := #[]
  instances : Array Instance := #[]

namespace Function

def name (f : Function) : String := f.decl.name.lexeme

def arity (f : Function) : Nat := f.decl.arity

end Function

namespace Heap

/-! ### Objects by handle -/

@[inline] def scope (h : Heap) (id : ScopeId) : Scope := h.scopes.getD id {}

@[inline] def function (h : Heap) (id : FunctionId) : Function := h.functions.getD id default

@[inline] def cls (h : Heap) (id : ClassId) : Class := h.classes.getD id default

@[inline] def inst (h : Heap) (id : InstanceId) : Instance := h.instances.getD id default

/-! ### Creation -/

@[inline] def newScope (h : Heap) (s : Scope) : ScopeId × Heap :=
  (h.scopes.size, { h with scopes := h.scopes.push s })

@[inline] def newFunction (h : Heap) (f : Function) : FunctionId × Heap :=
  (h.functions.size, { h with functions := h.functions.push f })

@[inline] def newClass (h : Heap) (c : Class) : ClassId × Heap :=
  (h.classes.size, { h with classes := h.classes.push c })

@[inline] def newInstance (h : Heap) (i : Instance) : InstanceId × Heap :=
  (h.instances.size, { h with instances := h.instances.push i })

/-! ### Variables -/

/-- Bind a name in one scope of many. -/
@[noinline] def defineIn (scopes : Array Scope) (id : ScopeId) (name : String) (v : Value) :
    Array Scope :=
  scopes.modify id fun s => { s with values := s.values.insert name v }

/-- Bind a name in a scope, in place of an earlier value. -/
@[inline] def define (h : Heap) (id : ScopeId) (name : String) (v : Value) : Heap :=
  { h with scopes := defineIn h.scopes id name v }

/-- The value of a name in one scope. -/
def getLocal? (h : Heap) (id : ScopeId) (name : String) : Option Value :=
  (h.scope id).values.find? name

/-- The scope that lies `distance` steps out. -/
def ancestor? (h : Heap) (id : ScopeId) : Nat → Option ScopeId
  | 0 => some id
  | distance + 1 =>
    match (h.scope id).enclosing with
    | some outer => h.ancestor? outer distance
    | none => none

/-- The innermost scope, from `id` outwards, that binds a name. -/
def holder? (h : Heap) (id : ScopeId) (name : String) : Option ScopeId :=
  if (h.scope id).values.contains name then some id
  else
    match (h.scope id).enclosing with
    | some outer => if outer < id then h.holder? outer name else none
    | none => none
termination_by id

/-- The value of a name in the innermost scope that binds it. -/
def get? (h : Heap) (id : ScopeId) (name : String) : Option Value :=
  match h.holder? id name with
  | some s => h.getLocal? s name
  | none => none

/-- Change a name in the innermost scope that binds it. -/
def assign? (h : Heap) (id : ScopeId) (name : String) (v : Value) : Option Heap :=
  match h.holder? id name with
  | some s => some (h.define s name v)
  | none => none

/-- The value of a name in the scope exactly `distance` steps out. -/
def getAt? (h : Heap) (id : ScopeId) (distance : Nat) (name : String) : Option Value :=
  match h.ancestor? id distance with
  | some s => h.getLocal? s name
  | none => none

/-- The scope exactly `distance` steps out, if it binds a name. -/
def holderAt? (h : Heap) (id : ScopeId) (distance : Nat) (name : String) : Option ScopeId :=
  match h.ancestor? id distance with
  | some s => if (h.scope s).values.contains name then some s else none
  | none => none

/-- Change a name in the scope exactly `distance` steps out, where it must be bound. -/
def assignAt? (h : Heap) (id : ScopeId) (distance : Nat) (name : String) (v : Value) :
    Option Heap :=
  match h.holderAt? id distance name with
  | some s => some (h.define s name v)
  | none => none

/-! ### Classes and instances -/

/-- The method of a class, its own or else inherited. -/
def findMethod? (h : Heap) (id : ClassId) (name : String) : Option Function :=
  match (h.cls id).methods.find? name with
  | some f => some f
  | none =>
    match (h.cls id).superclass with
    | some parent => if parent < id then h.findMethod? parent name else none
    | none => none
termination_by id

/-- Set a field of one instance of many. -/
@[noinline] def setFieldIn (instances : Array Instance) (id : InstanceId) (name : String)
    (v : Value) : Array Instance :=
  instances.modify id fun i => { i with fields := i.fields.insert name v }

/-- Set a field of an instance. -/
@[inline] def setField (h : Heap) (id : InstanceId) (name : String) (v : Value) : Heap :=
  { h with instances := setFieldIn h.instances id name v }

/-- The number of arguments that a value takes when it is called. A class takes those of its
initializer. -/
def arity? (h : Heap) : Value → Option Nat
  | .native f => some f.arity
  | .function id => some (h.function id).arity
  | .cls id =>
    match h.findMethod? id FunDecl.initializerName with
    | some f => some f.arity
    | none => some 0
  | _ => none

/-- A value as `print` shows it. -/
def display (h : Heap) : Value → String
  | .nil => "nil"
  | .bool true => "true"
  | .bool false => "false"
  | .number n => n.display
  | .string s => s
  | .native _ => "<native fn>"
  | .function id => "<fn " ++ (h.function id).name ++ ">"
  | .cls id => (h.cls id).name
  | .inst id => (h.cls (h.inst id).cls).name ++ " instance"

end Heap

end Lox
