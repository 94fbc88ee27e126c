import Lox.Grammar.Cursor

/-!
# Reading expressions

Binary and logical operators form six levels of precedence. On each level, operands of the next
tighter level are joined from left to right. Below the tightest level come unary operators, then
calls and property accesses, then literals, names and groupings. Assignment is looser than all of
them and groups to the right.

    expression → target "=" expression | chain or
    chain l    → operand l ( operator l operand l )*
    unary      → ( "!" | "-" ) unary | call
    call       → primary ( "(" arguments? ")" | "." IDENTIFIER )*
    primary    → literal | "this" | IDENTIFIER | "super" "." IDENTIFIER | "(" expression ")"

The target of an assignment is read as a chain first. If it turns out to be neither a variable nor a
property, this is a complaint, and the target alone is kept.
-/

namespace Lox

/-- Levels of binary operators, from the loosest to the tightest. -/
inductive Level where
  | or
  | and
  | equality
  | comparison
  | term
  | factor
  deriving DecidableEq

namespace Level

/-- The level of the operands; the operands of `factor` are unary expressions. -/
def tighter? : Level → Option Level
  | or => some and
  | and => some equality
  | equality => some comparison
  | comparison => some term
  | term => some factor
  | factor => none

/-- The operators of a level. -/
def hasOperator : Level → TokenKind → Bool
  | or, .keyword .or => true
  | and, .keyword .and => true
  | equality, .symbol .bangEqual | equality, .symbol .equalEqual => true
  | comparison, .symbol .greater | comparison, .symbol .greaterEqual
  | comparison, .symbol .less | comparison, .symbol .lessEqual => true
  | term, .symbol .minus | term, .symbol .plus => true
  | factor, .symbol .star | factor, .symbol .slash => true
  | _, _ => false

/-- The node that joins two operands on a level. -/
def join (l : Level) (id : NodeId) (left : Expr) (op : Token) (right : Expr) : Expr :=
  match l with
  | or | and => .logical id left op right
  | equality | comparison | term | factor => .binary id left op right

end Level

def isUnaryOperator : TokenKind → Bool
  | .symbol .bang | .symbol .minus => true
  | _ => false

/-- The constant that a token of some kind stands for. -/
def literalOf? : TokenKind → Option Literal
  | .keyword .false => some (.bool false)
  | .keyword .true => some (.bool true)
  | .keyword .nil => some .nil
  | .number n => some (.number n)
  | .string s => some (.string s)
  | _ => none

namespace Parse

/-- The method name after `super`. -/
def superAccess (keyword : Token) : Parse Expr := do
  let _ ← expect (.symbol .dot) .superDot
  let method ← expect .identifier .superMethod
  return .super (← freshId) keyword method

/-- The property name after an object and a dot. -/
def property (object : Expr) : Parse Expr := do
  let name ← expect .identifier .propertyName
  return .get (← freshId) object name

/-- Assign `value` to what was read before the equals sign. -/
def assignment (target : Expr) (equals : Token) (value : Expr) : Parse Expr :=
  match target with
  | .var _ name => do return .assign (← freshId) name value
  | .get _ object name => do return .set (← freshId) object name value
  | other => do
    complain equals .invalidAssignmentTarget
    return other

mutual

def expression : Nat → Parse Expr
  | 0 => outOfFuel
  | n + 1 => do
    let target ← chain n .or
    match ← accept (.symbol .equal) with
    | none => return target
    | some equals =>
      let value ← expression n
      assignment target equals value

/-- Operands of a level joined by its operators. -/
def chain : Nat → Level → Parse Expr
  | 0, _ => outOfFuel
  | n + 1, l => do
    let left ← operand n l
    chainRest n l left

/-- Join further operands to `left`, as long as operators of the level follow. -/
def chainRest : Nat → Level → Expr → Parse Expr
  | 0, _, _ => outOfFuel
  | n + 1, l, left => do
    match ← acceptIf l.hasOperator with
    | none => return left
    | some op =>
      let right ← operand n l
      let id ← freshId
      chainRest n l (l.join id left op right)

/-- An operand of the operators of a level. -/
def operand : Nat → Level → Parse Expr
  | 0, _ => outOfFuel
  | n + 1, l =>
    match l.tighter? with
    | some l' => chain n l'
    | none => unary n

def unary : Nat → Parse Expr
  | 0 => outOfFuel
  | n + 1 => do
    match ← acceptIf isUnaryOperator with
    | some op =>
      let right ← unary n
      return .unary (← freshId) op right
    | none =>
      let e ← primary n
      callRest n e

/-- Calls and property accesses that follow `e`. -/
def callRest : Nat → Expr → Parse Expr
  | 0, _ => outOfFuel
  | n + 1, e => do
    match ← accept (.symbol .leftParen) with
    | some _ =>
      let args ← arguments n
      let paren ← expect (.symbol .rightParen) .argumentsEnd
      let id ← freshId
      callRest n (.call id e paren args)
    | none =>
      match ← accept (.symbol .dot) with
      | some _ =>
        let object ← property e
        callRest n object
      | none => return e

/-- The arguments of a call, up to its closing parenthesis. -/
def arguments : Nat → Parse (List Expr)
  | 0 => outOfFuel
  | n + 1 => do
    if ← check (.symbol .rightParen) then return []
    else argumentsFrom n 0

/-- One argument or more, after `count` others. -/
def argumentsFrom : Nat → Nat → Parse (List Expr)
  | 0, _ => outOfFuel
  | n + 1, count => do
    checkArity count .tooManyArguments
    let e ← expression n
    match ← accept (.symbol .comma) with
    | none => return [e]
    | some _ =>
      let rest ← argumentsFrom n (count + 1)
      return e :: rest

def primary : Nat → Parse Expr
  | 0 => outOfFuel
  | n + 1 => do
    match ← acceptIf fun k => (literalOf? k).isSome with
    | some t => return .literal (← freshId) ((literalOf? t.kind).getD .nil)
    | none =>
    match ← accept (.keyword .super) with
    | some keyword => superAccess keyword
    | none =>
    match ← accept (.keyword .this) with
    | some keyword => return .this (← freshId) keyword
    | none =>
    match ← accept .identifier with
    | some name => return .var (← freshId) name
    | none =>
    match ← accept (.symbol .leftParen) with
    | some _ =>
      let inner ← expression n
      let _ ← expect (.symbol .rightParen) .groupingEnd
      return .grouping (← freshId) inner
    | none => failWith .expression

end

/-- An expression that takes up the whole input. -/
def wholeExpression (fuel : Nat) : Parse Expr := do
  let e ← expression fuel
  if ← atEnd then return e
  else failWith .endOfInput

end Parse

end Lox
