import Lox.Fault
import Lox.Value

/-!
# Operators

What unary, binary and logical operators do to values. Operators go by the kind of their token. A
kind that is no operator of its sort is a fault, but only after the operands have passed the checks
of arithmetic.
-/

namespace Lox

/-- Apply a unary operator. -/
def applyUnary (op : Token) (v : Value) : Except Fault Value :=
  match op.kind with
  | .symbol .minus =>
    match v with
    | .number n => .ok (.number n.neg)
    | _ => .error .operandNotNumber
  | .symbol .bang => .ok (.bool !v.isTruthy)
  | _ => .error (.invalidUnaryOperator op.lexeme)

/-- Add two numbers or join two strings. -/
def addValues : Value → Value → Except Fault Value
  | .number a, .number b => .ok (.number (a.add b))
  | .string a, .string b => .ok (.string (a ++ b))
  | _, _ => .error .operandsNotAddable

/-- Apply an operator on numbers other than addition. -/
def applyArithmetic (op : Token) (a b : Number) : Except Fault Value :=
  match op.kind with
  | .symbol .minus => .ok (.number (a.sub b))
  | .symbol .star => .ok (.number (a.mul b))
  | .symbol .slash => .ok (.number (a.div b))
  | .symbol .greater => .ok (.bool (b.lt a))
  | .symbol .greaterEqual => .ok (.bool (b.le a))
  | .symbol .less => .ok (.bool (a.lt b))
  | .symbol .lessEqual => .ok (.bool (a.le b))
  | _ => .error (.invalidBinaryOperator op.lexeme)

/-- Apply a binary operator. Equality is defined on all values. -/
def applyBinary (op : Token) (a b : Value) : Except Fault Value :=
  match op.kind with
  | .symbol .equalEqual => .ok (.bool (a.equals b))
  | .symbol .bangEqual => .ok (.bool !a.equals b)
  | .symbol .plus => addValues a b
  | _ =>
    match a, b with
    | .number x, .number y => applyArithmetic op x y
    | _, _ => .error .operandsNotNumbers

/-- The left operand of a logical operator is already its result. Every operator but `or` counts as
`and`. -/
def decidesAlone (op : Token) (left : Value) : Bool :=
  match op.kind with
  | .keyword .or => left.isTruthy
  | _ => !left.isTruthy

end Lox
