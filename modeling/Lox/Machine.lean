import Lox.Fault
import Lox.Heap
import Lox.Number.Rounding
import Lox.Resolution.Findings

/-!
# The machine

A `Machine` is the state of a running program: the heap, the global scope, the current scope, the
recorded distances, the clock and the output. `Eval` is the monad of computations on it. A
computation ends with a value, with a runtime error, with a `return` on its way to the call that it
leaves, or without fuel; all but the last keep the machine.
-/

namespace Lox

/-- A clock, by the readings it will give one after the other. There is none while the clock stands
before the epoch. -/
structure Clock where
  readings : Nat → Option Number
  taken : Nat := 0

namespace Clock

/-- Readings in seconds from a start in nanoseconds, each a microsecond after the one before. -/
def readingsFrom (start : Int) (i : Nat) : Option Number :=
  match start + 1000 * i with
  | .ofNat nanoseconds => some (Number.ofRatio nanoseconds 1000000000)
  | .negSucc _ => none

end Clock

/-- Where printed text goes. Nothing arrives in a broken output. -/
structure Output where
  text : String := ""
  broken : Bool := false
  deriving DecidableEq, Inhabited

namespace Output

def write (o : Output) (s : String) : Output :=
  if o.broken then o else { o with text := o.text ++ s }

/-- The same output with nothing written yet. -/
def cleared (o : Output) : Output := { o with text := "" }

end Output

/-- The state of a running program. -/
structure Machine where
  heap : Heap
  globals : ScopeId
  current : ScopeId
  distances : Distances := {}
  clock : Clock
  output : Output := {}

namespace Machine

/-- The global scope of a new machine, with the functions that come with the language. -/
def nativeScope : Scope where
  values := Table.insertAll {} (Native.all.map fun f => (f.name, .native f))
  enclosing := none

/-- A machine that has run nothing. -/
def new (readings : Nat → Option Number) (brokenOutput : Bool) : Machine where
  heap := { scopes := #[nativeScope] }
  globals := 0
  current := 0
  clock := { readings }
  output := { broken := brokenOutput }

/-- Enter findings of the static walk into the recorded distances. -/
def resolved (m : Machine) (findings : List Finding) : Machine :=
  { m with distances := m.distances.recordAll findings }

/-- The machine after a reading of its clock. -/
def ticked (m : Machine) : Machine :=
  { m with clock := { m.clock with taken := m.clock.taken + 1 } }

end Machine

/-- How a computation ends. -/
inductive Outcome (α : Type) where
  | ok (value : α) (m : Machine)
  | error (e : RuntimeError) (m : Machine)
  | returned (keyword : Token) (value : Value) (m : Machine)
  | outOfFuel

/-- Computations on a machine. -/
def Eval (α : Type) : Type := Machine → Outcome α

namespace Eval

variable {α β : Type}

@[inline] protected def pure (a : α) : Eval α := fun m => .ok a m

@[inline] protected def bind (p : Eval α) (f : α → Eval β) : Eval β := fun m =>
  match p m with
  | .ok a next => f a next
  | .error e next => .error e next
  | .returned keyword v next => .returned keyword v next
  | .outOfFuel => .outOfFuel

instance : Monad Eval where
  pure := Eval.pure
  bind := Eval.bind

def outOfFuel : Eval α := fun _ => .outOfFuel

/-- End with a runtime error that blames a token. -/
def fault (f : Fault) (token : Token) : Eval α := fun m => .error (f.at_ token) m

/-- Leave the current function with a value. -/
def leave (keyword : Token) (v : Value) : Eval α := fun m => .returned keyword v m

/-- A value, or a fault of which a token is to blame. -/
def ofExcept (token : Token) : Except Fault α → Eval α
  | .ok a => Eval.pure a
  | .error f => fault f token

/-- Look at the heap. -/
@[inline] def inspect (f : Heap → α) : Eval α := fun m => .ok (f m.heap) m

/-! ### Scopes -/

/-- Run a computation in another current scope, and come back whatever its end. -/
@[inline] def withScope (s : ScopeId) (p : Eval α) : Eval α := fun m =>
  let previous := m.current
  match p { m with current := s } with
  | .ok a next => .ok a { next with current := previous }
  | .error e next => .error e { next with current := previous }
  | .returned keyword v next => .returned keyword v { next with current := previous }
  | .outOfFuel => .outOfFuel

/-- Stop a `return` here. A computation that ends without one gives `nil`. -/
@[inline] def catchReturn (p : Eval Unit) : Eval Value := fun m =>
  match p m with
  | .ok _ next => .ok .nil next
  | .error e next => .error e next
  | .returned _ v next => .ok v next
  | .outOfFuel => .outOfFuel

/-- A new scope around which `enclosing` lies. -/
def newScope (enclosing : ScopeId) (values : Table Value) : Eval ScopeId := fun m =>
  let (id, heap) := m.heap.newScope ⟨values, some enclosing⟩
  .ok id { m with heap }

def currentScope : Eval ScopeId := fun m => .ok m.current m

/-- Bind a name in the current scope. -/
def define (name : String) (v : Value) : Eval Unit := fun m =>
  .ok () { m with heap := m.heap.define m.current name v }

/-- Change a name in the innermost scope that binds it. -/
def assign (name : Token) (v : Value) : Eval Unit := fun m =>
  match m.heap.holder? m.current name.lexeme with
  | some s => .ok () { m with heap := m.heap.define s name.lexeme v }
  | none => .error ((Fault.undefinedVariable name.lexeme).at_ name) m

/-- The value of a variable: at its recorded distance, or else global. -/
def readVariable (id : NodeId) (name : Token) : Eval Value := fun m =>
  let found := match m.distances.find? id with
    | some distance => m.heap.getAt? m.current distance name.lexeme
    | none => m.heap.get? m.globals name.lexeme
  match found with
  | some v => .ok v m
  | none => .error ((Fault.undefinedVariable name.lexeme).at_ name) m

/-- Change a variable: at its recorded distance, or else global. -/
def writeVariable (id : NodeId) (name : Token) (v : Value) : Eval Unit := fun m =>
  let holder := match m.distances.find? id with
    | some distance => m.heap.holderAt? m.current distance name.lexeme
    | none => m.heap.holder? m.globals name.lexeme
  match holder with
  | some s => .ok () { m with heap := m.heap.define s name.lexeme v }
  | none => .error ((Fault.undefinedVariable name.lexeme).at_ name) m

/-! ### Objects -/

def newFunction (f : Function) : Eval Value := fun m =>
  let (id, heap) := m.heap.newFunction f
  .ok (.function id) { m with heap }

def newClass (c : Class) : Eval Value := fun m =>
  let (id, heap) := m.heap.newClass c
  .ok (.cls id) { m with heap }

def newInstance (cls : ClassId) : Eval InstanceId := fun m =>
  let (id, heap) := m.heap.newInstance ⟨cls, {}⟩
  .ok id { m with heap }

def setField (id : InstanceId) (name : String) (v : Value) : Eval Unit := fun m =>
  .ok () { m with heap := m.heap.setField id name v }

/-- A method with `this` bound to an instance, in a scope of its own. -/
def bindThis (method : Function) (this : InstanceId) : Eval Function := do
  let closure ← newScope method.closure (.singleton "this" (.inst this))
  return { method with closure }

/-- A method bound to an instance, as a new function. -/
def boundMethod (method : Function) (this : InstanceId) : Eval Value := do
  newFunction (← bindThis method this)

/-! ### The world outside -/

def print (v : Value) : Eval Unit := fun m =>
  .ok () { m with output := m.output.write (m.heap.display v ++ "\n") }

/-- Take the next reading of the clock. -/
def readClock : Eval (Option Number) := fun m => .ok (m.clock.readings m.clock.taken) m.ticked

end Eval

end Lox
