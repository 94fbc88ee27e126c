import Lox.Report

/-!
# Runtime faults

The causes of runtime errors. Each cause has a kind and a message; together with a token to blame it
makes a `RuntimeError`. Causes of the kind `internal` cannot arise in a program that passed the
static rules.
-/

namespace Lox

inductive Fault where
  | undefinedVariable (name : String)
  | undefinedProperty (name : String)
  | noProperties
  | noFields
  | operandNotNumber
  | operandsNotNumbers
  | operandsNotAddable
  | invalidUnaryOperator (lexeme : String)
  | invalidBinaryOperator (lexeme : String)
  | notCallable
  | wrongArity (expected got : Nat)
  | superclassNotClass
  | clockBeforeEpoch
  | unresolvedSuper
  | superNotClass
  | superWithoutThis | thisNotInstance
  | unboundInitializer
  | escapedReturn
  deriving DecidableEq

namespace Fault

def kind : Fault → ErrorKind
  | undefinedVariable _ => .undefinedVariable
  | undefinedProperty _ => .undefinedProperty
  | noProperties | noFields => .notInstance
  | operandNotNumber | operandsNotNumbers | operandsNotAddable => .typeMismatch
  | notCallable => .notCallable
  | wrongArity _ _ => .arityMismatch
  | superclassNotClass => .invalidSuperclass
  | clockBeforeEpoch => .native
  | invalidUnaryOperator _ | invalidBinaryOperator _ | unresolvedSuper | superNotClass
  | superWithoutThis | thisNotInstance | unboundInitializer | escapedReturn =>
    .internal

def message : Fault → String
  | undefinedVariable name => "Undefined variable '" ++ name ++ "'."
  | undefinedProperty name => "Undefined property '" ++ name ++ "'."
  | noProperties => "Only instances have properties."
  | noFields => "Only instances have fields."
  | operandNotNumber => "Operand must be a number."
  | operandsNotNumbers => "Operands must be numbers."
  | operandsNotAddable => "Operands must be two numbers or two strings."
  | invalidUnaryOperator lexeme => "Invalid unary operator '" ++ lexeme ++ "'."
  | invalidBinaryOperator lexeme => "Invalid binary operator '" ++ lexeme ++ "'."
  | notCallable => "Can only call functions and classes."
  | wrongArity expected got =>
    "Expected " ++ toString expected ++ " arguments but got " ++ toString got ++ "."
  | superclassNotClass => "Superclass must be a class."
  | clockBeforeEpoch => "Clock error: second time provided was later than self"
  | unresolvedSuper => "Unresolved 'super' expression."
  | superNotClass => "'super' is not bound to a class."
  | superWithoutThis => "'super' resolved without an enclosing 'this'."
  | thisNotInstance => "'this' is not bound to an instance."
  | unboundInitializer => "Initializer is not bound to an instance."
  | escapedReturn => "Can't return from top-level code."

/-- The error that blames a token. -/
def at_ (f : Fault) (token : Token) : RuntimeError := ⟨f.kind, token, f.message⟩

end Fault

end Lox
