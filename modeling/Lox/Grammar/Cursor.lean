import Lox.Report
import Lox.Tree

/-!
# Reading tokens

A `Cursor` is a place in a token list: the tokens ahead, up to the first end of file, which is kept
apart and never passed. Along with it go the number of nodes made so far and the complaints.

`Parse` is the monad of readers on a cursor. A reader may fail with a complaint, which leaves the
cursor where the mistake was found; it may also record a complaint and go on. Readers recurse on a
fuel argument, and running out of it is a result of its own.
-/

namespace Lox

/-- Named code: a function of its own or a method of a class. -/
inductive FunctionSort where
  | function
  | method
  deriving DecidableEq

namespace FunctionSort

def word : FunctionSort → String
  | function => "function"
  | method => "method"

end FunctionSort

/-- What should have come next. -/
inductive Expected where
  | className
  | superclassName
  | classBody
  | classEnd
  | functionName (sort : FunctionSort)
  | parameterList (sort : FunctionSort)
  | parameterName
  | parametersEnd
  | functionBody (sort : FunctionSort)
  | variableName
  | variableEnd
  | forClauses
  | loopConditionEnd
  | forClausesEnd
  | ifCondition
  | ifConditionEnd
  | whileCondition
  | whileConditionEnd
  | printEnd
  | returnEnd
  | expressionStatementEnd
  | blockEnd
  | propertyName
  | argumentsEnd
  | superDot
  | superMethod
  | groupingEnd
  | expression
  | endOfInput
  deriving DecidableEq

namespace Expected

def describe : Expected → String
  | className => "class name"
  | superclassName => "superclass name"
  | classBody => "'\x7b' before class body"
  | classEnd => "'\x7d' after class body"
  | functionName sort => sort.word ++ " name"
  | parameterList sort => "'(' after " ++ sort.word ++ " name"
  | parameterName => "parameter name"
  | parametersEnd => "')' after parameters"
  | functionBody sort => "'\x7b' before " ++ sort.word ++ " body"
  | variableName => "variable name"
  | variableEnd => "';' after variable declaration"
  | forClauses => "'(' after 'for'"
  | loopConditionEnd => "';' after loop condition"
  | forClausesEnd => "')' after for clauses"
  | ifCondition => "'(' after 'if'"
  | ifConditionEnd => "')' after if condition"
  | whileCondition => "'(' after 'while'"
  | whileConditionEnd => "')' after condition"
  | printEnd => "';' after value"
  | returnEnd => "';' after return value"
  | expressionStatementEnd => "';' after expression"
  | blockEnd => "'\x7d' after block"
  | propertyName => "property name after '.'"
  | argumentsEnd => "')' after arguments"
  | superDot => "'.' after 'super'"
  | superMethod => "superclass method name"
  | groupingEnd => "')' after expression"
  | expression => "expression"
  | endOfInput => "end of expression"

end Expected

/-- A mistake in the order of tokens. -/
inductive ParseError where
  | expected (what : Expected)
  | invalidAssignmentTarget
  | tooManyParameters
  | tooManyArguments
  deriving DecidableEq

namespace ParseError

def message : ParseError → String
  | expected what => "Expected " ++ what.describe ++ "."
  | invalidAssignmentTarget => "Invalid assignment target."
  | tooManyParameters => "Can't have more than 255 parameters."
  | tooManyArguments => "Can't have more than 255 arguments."

end ParseError

/-- The most parameters or arguments that pass without a complaint. -/
def maxArity : Nat := 255

/-- A mistake and the token it is blamed on. -/
structure Complaint where
  token : Token
  error : ParseError
  deriving DecidableEq

namespace Complaint

def report (c : Complaint) : Report := .parsing c.token c.error.message

end Complaint

/-- A place in a token list. -/
structure Cursor where
  /-- The tokens still to be read, without the end of file. -/
  ahead : List Token
  eof : Token
  made : Nat
  /-- The complaints made so far, oldest first. -/
  complaints : List Complaint

namespace Cursor

/-- The start of a token list, which counts up to its first end of file. -/
def ofTokens (tokens : List Token) (made : Nat) : Cursor where
  ahead := tokens.takeWhile fun t => !t.isEof
  eof := (tokens.find? Token.isEof).getD ⟨.eof, "", 1⟩
  made := made
  complaints := []

/-- The token to be read next. -/
def peek (c : Cursor) : Token := c.ahead.headD c.eof

/-- The next token has kind `k`. This fails at the end of file. -/
def check (c : Cursor) (k : TokenKind) : Bool :=
  match c.ahead with
  | [] => false
  | t :: _ => t.kind == k

def complain (c : Cursor) (x : Complaint) : Cursor := { c with complaints := c.complaints ++ [x] }

/-- A token of this kind starts a declaration or statement with a keyword of its own. -/
def startsStatement (t : Token) : Bool :=
  match t.kind with
  | .keyword .class_ | .keyword .fun_ | .keyword .var | .keyword .for_ | .keyword .if_
  | .keyword .while_ | .keyword .print | .keyword .return_ => true
  | _ => false

/-- Skip to the next place where a statement may start: after a semicolon or before a keyword that
starts one. The token `last` has just been skipped. -/
def skipFrom (last : Token) : List Token → List Token
  | [] => []
  | t :: rest =>
    if last.kind == .symbol .semicolon || startsStatement t then t :: rest else skipFrom t rest

/-- Skip at least one token, and on to the next place where a statement may start. -/
def synchronize (c : Cursor) : Cursor :=
  match c.ahead with
  | [] => c
  | t :: rest => { c with ahead := skipFrom t rest }

end Cursor

/-- The result of a reader. -/
inductive Reply (α : Type) where
  | ok (value : α) (next : Cursor)
  | fail (complaint : Complaint) (next : Cursor)
  | outOfFuel

/-- Readers of tokens. -/
def Parse (α : Type) : Type := Cursor → Reply α

namespace Parse

@[inline] protected def pure {α : Type} (a : α) : Parse α := fun c => .ok a c

@[inline] protected def bind {α β : Type} (p : Parse α) (f : α → Parse β) : Parse β := fun c =>
  match p c with
  | .ok a next => f a next
  | .fail x next => .fail x next
  | .outOfFuel => .outOfFuel

instance : Monad Parse where
  pure := Parse.pure
  bind := Parse.bind

def outOfFuel {α : Type} : Parse α := fun _ => .outOfFuel

/-- Fail at the token to be read next. -/
def failWith {α : Type} (what : Expected) : Parse α := fun c => .fail ⟨c.peek, .expected what⟩ c

/-- The token to be read next, left in place. -/
def peek : Parse Token := fun c => .ok c.peek c

def atEnd : Parse Bool := fun c => .ok c.ahead.isEmpty c

def check (k : TokenKind) : Parse Bool := fun c => .ok (c.check k) c

/-- Nothing is left to read, or, within braces, nothing but the closing brace comes next. -/
def atClosing (inBraces : Bool) : Parse Bool := fun c =>
  .ok (c.ahead.isEmpty || (inBraces && c.check (.symbol .rightBrace))) c

/-- Read the next token if its kind passes a test. -/
def acceptIf (test : TokenKind → Bool) : Parse (Option Token) := fun c =>
  match c.ahead with
  | [] => .ok none c
  | t :: rest => if test t.kind then .ok (some t) { c with ahead := rest } else .ok none c

/-- Read the next token if it is of kind `k`. -/
def accept (k : TokenKind) : Parse (Option Token) := acceptIf (· == k)

/-- Read a token of kind `k`, or fail at the token that stands there. -/
def expect (k : TokenKind) (what : Expected) : Parse Token := do
  match ← accept k with
  | some t => return t
  | none => failWith what

/-- Record a complaint and go on. -/
def complain (t : Token) (e : ParseError) : Parse Unit := fun c => .ok () (c.complain ⟨t, e⟩)

/-- Complain about the token to be read next if there is no room for another item. -/
def checkArity (count : Nat) (e : ParseError) : Parse Unit := fun c =>
  if maxArity ≤ count then .ok () (c.complain ⟨c.peek, e⟩) else .ok () c

/-- A new node identity. -/
def freshId : Parse NodeId := fun c => .ok (.ofNat c.made) { c with made := c.made + 1 }

/-- Turn a failure into a recorded complaint, and skip to where the next statement may start. -/
def recover {α : Type} (p : Parse α) : Parse (Option α) := fun c =>
  match p c with
  | .ok a next => .ok (some a) next
  | .fail x next => .ok none (next.complain x).synchronize
  | .outOfFuel => .outOfFuel

end Parse

end Lox
