import Lox.Tree

/-!
# Values

The values of a running program. Scalars carry their contents. Functions, classes and instances are
handles into the heap, so two of them are equal exactly when they are the same object.
-/

namespace Lox

abbrev ScopeId := Nat

abbrev FunctionId := Nat

abbrev ClassId := Nat

abbrev InstanceId := Nat

/-- Functions that come with the language. -/
inductive Native where
  | clock
  deriving DecidableEq, Inhabited

namespace Native

def all : List Native := [.clock]

def name : Native → String
  | clock => "clock"

def arity : Native → Nat
  | clock => 0

end Native

inductive Value where
  | nil
  | bool (b : Bool)
  | number (n : Number)
  | string (s : String)
  | native (f : Native)
  | function (id : FunctionId)
  | cls (id : ClassId)
  | inst (id : InstanceId)
  deriving DecidableEq, Inhabited

namespace Value

/-- All values but `nil` and `false` are true. -/
def isTruthy : Value → Bool
  | nil => false
  | bool b => b
  | _ => true

/-- Equality of the language: numbers compare as numbers, other scalars by contents, objects by
identity. -/
def equals : Value → Value → Bool
  | number a, number b => a.numEq b
  | a, b => a == b

def typeName : Value → String
  | nil => "nil"
  | bool _ => "boolean"
  | number _ => "number"
  | string _ => "string"
  | native _ => "function"
  | function _ => "function"
  | cls _ => "class"
  | inst _ => "instance"

end Value

namespace Literal

def toValue : Literal → Value
  | nil => .nil
  | bool b => .bool b
  | number n => .number n
  | string s => .string s

end Literal

end Lox
