import Lox.Grammar.Statement

/-!
# Reading tokens by their index

The readers of `Lox.Grammar` are given the tokens ahead, up to the first end of file, and cannot but
stay within them. The readers here are given the whole list of tokens and move a `Head` over it, by
an index. They look at a token by asking for the one at an index, of which there may be none, and
nothing but the token at the index tells them that the end of file has been reached.

A head keeps a record of the indices that were asked for and of the rounds of all loops: a `Round`
has gone from one index to another, and has either left the loop or not. One definition, `round`,
makes the rounds of all loops.
-/

namespace Lox

/-- A round of a loop: where it started, where it stopped, and whether it left the loop. -/
structure Round where
  start : Nat
  stop : Nat
  left : Bool
  deriving DecidableEq

/-- A place in a list of tokens, by its index. -/
structure Head where
  current : Nat := 0
  made : Nat
  complaints : List Complaint := []
  /-- The indices of the tokens looked at, latest first. -/
  reads : List Nat := []
  /-- The rounds of loops that have ended, latest first. -/
  rounds : List Round := []

/-- How a loop goes on: with another round, or with a result. -/
inductive Turn (σ α : Type) where
  | again (state : σ)
  | leave (result : α)

/-- The result of a reader that moves a head. -/
inductive Indexed.Reply (α : Type) where
  | ok (value : α) (next : Head)
  | fail (complaint : Complaint) (next : Head)
  /-- There is no token at the index. -/
  | outside (index : Nat)
  | outOfFuel

/-- Readers of a list of tokens that move a head. -/
def Indexed (α : Type) : Type := List Token → Head → Indexed.Reply α

namespace Indexed

variable {σ α β : Type}

protected def pure (a : α) : Indexed α := fun _ h => .ok a h

protected def bind (p : Indexed α) (f : α → Indexed β) : Indexed β := fun tokens h =>
  match p tokens h with
  | .ok a next => f a tokens next
  | .fail x next => .fail x next
  | .outside i => .outside i
  | .outOfFuel => .outOfFuel

instance : Monad Indexed where
  pure := Indexed.pure
  bind := Indexed.bind

def outOfFuel : Indexed α := fun _ _ => .outOfFuel

/-! ### Single steps -/

/-- The token at an index. -/
def tokenAt (i : Nat) : Indexed Token := fun tokens h =>
  match tokens[i]? with
  | some t => .ok t { h with reads := i :: h.reads }
  | none => .outside i

def position : Indexed Nat := fun _ h => .ok h.current h

/-- The number of tokens. -/
def size : Indexed Nat := fun tokens h => .ok tokens.length h

/-- The token to be read next. -/
def peek : Indexed Token := do tokenAt (← position)

/-- The token that was read last. -/
def previous : Indexed Token := do tokenAt ((← position) - 1)

/-- The token to be read next is an end of file. -/
def atEnd : Indexed Bool := do return (← peek).isEof

def check (k : TokenKind) : Indexed Bool := do
  if ← atEnd then return false
  else return (← peek).kind == k

/-- Nothing is left to read, or, within braces, nothing but the closing brace comes next. -/
def atClosing (inBraces : Bool) : Indexed Bool := do
  if inBraces then
    if ← check (.symbol .rightBrace) then return true
    else atEnd
  else atEnd

/-- Move one token on, but never past an end of file, and look back at the token before. -/
def advance : Indexed Token := do
  if ← atEnd then previous
  else
    fun tokens h => previous tokens { h with current := h.current + 1 }

/-- Read the next token if its kind passes a test. -/
def acceptIf (test : TokenKind → Bool) : Indexed (Option Token) := do
  if ← atEnd then return none
  else if test (← peek).kind then return some (← advance)
  else return none

def accept (k : TokenKind) : Indexed (Option Token) := acceptIf (· == k)

/-- Fail at the token to be read next. -/
def failWith (what : Expected) : Indexed α := do
  let t ← peek
  fun _ h => .fail ⟨t, .expected what⟩ h

/-- Read a token of kind `k`, or fail at the token that stands there. -/
def expect (k : TokenKind) (what : Expected) : Indexed Token := do
  match ← accept k with
  | some t => return t
  | none => failWith what

def complain (x : Complaint) : Indexed Unit := fun _ h =>
  .ok () { h with complaints := h.complaints ++ [x] }

/-- Complain about the token to be read next if there is no room for another item. -/
def checkArity (count : Nat) (e : ParseError) : Indexed Unit := do
  if maxArity ≤ count then complain ⟨← peek, e⟩
  else return ()

def freshId : Indexed NodeId := fun _ h => .ok (.ofNat h.made) { h with made := h.made + 1 }

/-- The end of a round that started at an index: the round is recorded, and the loop goes on with
`next` or ends. -/
def conclude (start : Nat) (next : σ → Indexed α) (turn : Turn σ α) : Indexed α := fun tokens h =>
  match turn with
  | .again s => next s tokens { h with rounds := ⟨start, h.current, false⟩ :: h.rounds }
  | .leave a => .ok a { h with rounds := ⟨start, h.current, true⟩ :: h.rounds }

/-- One round of a loop, and then the next one or the end of the loop. A failure leaves the loop in
the middle of a round. -/
def round (body : Indexed (Turn σ α)) (next : σ → Indexed α) : Indexed α := do
  let start ← position
  let turn ← body
  conclude start next turn

/-! ### Recovery -/

/-- Skip a token, unless it stands after a semicolon or starts a statement. -/
def skipOne : Indexed (Turn Unit Unit) := do
  if ← atEnd then return .leave ()
  else if (← previous).kind == .symbol .semicolon then return .leave ()
  else if Cursor.startsStatement (← peek) then return .leave ()
  else
    let _ ← advance
    return .again ()

/-- The loop of skipping. -/
def skip : Nat → Indexed Unit
  | 0 => outOfFuel
  | n + 1 => round skipOne fun _ => skip n

/-- Skip a token, and on to the next place where a statement may start. -/
def synchronize : Indexed Unit := do
  let _ ← advance
  skip ((← size) + 1)

/-- Turn a failure into a recorded complaint. -/
def attempt (p : Indexed α) (afterwards : Indexed Unit) : Indexed (Option α) := fun tokens h =>
  match p tokens h with
  | .ok a next => .ok (some a) next
  | .fail x next => (do complain x; afterwards; return none : Indexed (Option α)) tokens next
  | .outside i => .outside i
  | .outOfFuel => .outOfFuel

def recover (p : Indexed α) : Indexed (Option α) := attempt p synchronize

/-! ### Expressions -/

def superAccess (keyword : Token) : Indexed Expr := do
  let _ ← expect (.symbol .dot) .superDot
  let method ← expect .identifier .superMethod
  return .super (← freshId) keyword method

def property (object : Expr) : Indexed Expr := do
  let name ← expect .identifier .propertyName
  return .get (← freshId) object name

def assignment (target : Expr) (equals : Token) (value : Expr) : Indexed Expr :=
  match target with
  | .var _ name => do return .assign (← freshId) name value
  | .get _ object name => do return .set (← freshId) object name value
  | other => do
    complain ⟨equals, .invalidAssignmentTarget⟩
    return other

mutual

def expression : Nat → Indexed Expr
  | 0 => outOfFuel
  | n + 1 => do
    let target ← chain n .or
    match ← accept (.symbol .equal) with
    | none => return target
    | some equals =>
      let value ← expression n
      assignment target equals value

def chain : Nat → Level → Indexed Expr
  | 0, _ => outOfFuel
  | n + 1, l => do
    let left ← operand n l
    chainRest n l left

/-- The loop of an operator level. -/
def chainRest : Nat → Level → Expr → Indexed Expr
  | 0, _, _ => outOfFuel
  | n + 1, l, left =>
    round
      (do
        match ← acceptIf l.hasOperator with
        | none => return .leave left
        | some op =>
          let right ← operand n l
          return .again (l.join (← freshId) left op right))
      fun left => chainRest n l left

def operand : Nat → Level → Indexed Expr
  | 0, _ => outOfFuel
  | n + 1, l =>
    match l.tighter? with
    | some l' => chain n l'
    | none => unary n

def unary : Nat → Indexed Expr
  | 0 => outOfFuel
  | n + 1 => do
    match ← acceptIf isUnaryOperator with
    | some op =>
      let right ← unary n
      return .unary (← freshId) op right
    | none =>
      let e ← primary n
      callRest n e

/-- The loop of calls and property accesses. -/
def callRest : Nat → Expr → Indexed Expr
  | 0, _ => outOfFuel
  | n + 1, e =>
    round
      (do
        match ← accept (.symbol .leftParen) with
        | some _ =>
          let args ← arguments n
          let paren ← expect (.symbol .rightParen) .argumentsEnd
          return .again (.call (← freshId) e paren args)
        | none =>
          match ← accept (.symbol .dot) with
          | some _ => return .again (← property e)
          | none => return .leave e)
      fun e => callRest n e

def arguments : Nat → Indexed (List Expr)
  | 0 => outOfFuel
  | n + 1 => do
    if ← check (.symbol .rightParen) then return []
    else argumentsFrom n 0

/-- The loop of arguments. -/
def argumentsFrom : Nat → Nat → Indexed (List Expr)
  | 0, _ => outOfFuel
  | n + 1, count =>
    round
      (do
        checkArity count .tooManyArguments
        let e ← expression n
        match ← accept (.symbol .comma) with
        | none => return .leave [e]
        | some _ => return .again e)
      fun e => do
        let rest ← argumentsFrom n (count + 1)
        return e :: rest

def primary : Nat → Indexed Expr
  | 0 => outOfFuel
  | n + 1 => do
    match ← acceptIf fun k => (literalOf? k).isSome with
    | some t => return .literal (← freshId) ((literalOf? t.kind).getD .nil)
    | none =>
    match ← accept (.keyword .super) with
    | some keyword => superAccess keyword
    | none =>
    match ← accept (.keyword .this) with
    | some keyword => return .this (← freshId) keyword
    | none =>
    match ← accept .identifier with
    | some name => return .var (← freshId) name
    | none =>
    match ← accept (.symbol .leftParen) with
    | some _ =>
      let inner ← expression n
      let _ ← expect (.symbol .rightParen) .groupingEnd
      return .grouping (← freshId) inner
    | none => failWith .expression

end

/-! ### Statements without parts of their own kind -/

def expressionUnless (n : Nat) (k : TokenKind) : Indexed (Option Expr) := do
  if ← check k then return none
  else return some (← expression n)

def varDeclaration (n : Nat) : Indexed Stmt := do
  let name ← expect .identifier .variableName
  match ← accept (.symbol .equal) with
  | some _ =>
    let init ← expression n
    let _ ← expect (.symbol .semicolon) .variableEnd
    return .var name (some init)
  | none =>
    let _ ← expect (.symbol .semicolon) .variableEnd
    return .var name none

def expressionStatement (n : Nat) : Indexed Stmt := do
  let e ← expression n
  let _ ← expect (.symbol .semicolon) .expressionStatementEnd
  return .expression e

def printStatement (n : Nat) : Indexed Stmt := do
  let e ← expression n
  let _ ← expect (.symbol .semicolon) .printEnd
  return .print e

def returnStatement (n : Nat) (keyword : Token) : Indexed Stmt := do
  let value ← expressionUnless n (.symbol .semicolon)
  let _ ← expect (.symbol .semicolon) .returnEnd
  return .return_ keyword value

def forInit (n : Nat) : Indexed (Option Stmt) := do
  match ← accept (.symbol .semicolon) with
  | some _ => return none
  | none =>
  match ← accept (.keyword .var) with
  | some _ => return some (← varDeclaration n)
  | none => return some (← expressionStatement n)

def forClauses (n : Nat) : Indexed (Option Stmt × Option Expr × Option Expr) := do
  let _ ← expect (.symbol .leftParen) .forClauses
  let init ← forInit n
  let cond ← expressionUnless n (.symbol .semicolon)
  let _ ← expect (.symbol .semicolon) .loopConditionEnd
  let step ← expressionUnless n (.symbol .rightParen)
  let _ ← expect (.symbol .rightParen) .forClausesEnd
  return (init, cond, step)

def conditionOrTrue : Option Expr → Indexed Expr
  | some e => pure e
  | none => do return .literal (← freshId) (.bool true)

def condition (n : Nat) (opening closing : Expected) : Indexed Expr := do
  let _ ← expect (.symbol .leftParen) opening
  let cond ← expression n
  let _ ← expect (.symbol .rightParen) closing
  return cond

def superclass : Indexed (Option Expr) := do
  match ← accept (.symbol .less) with
  | some _ =>
    let name ← expect .identifier .superclassName
    return some (.var (← freshId) name)
  | none => return none

/-- The loop of parameters. -/
def parametersFrom : Nat → Nat → Indexed (List Token)
  | 0, _ => outOfFuel
  | n + 1, count =>
    round
      (do
        checkArity count .tooManyParameters
        let name ← expect .identifier .parameterName
        match ← accept (.symbol .comma) with
        | none => return .leave [name]
        | some _ => return .again name)
      fun name => do
        let rest ← parametersFrom n (count + 1)
        return name :: rest

def parameters (n : Nat) : Indexed (List Token) := do
  if ← check (.symbol .rightParen) then return []
  else parametersFrom n 0

def functionHead (n : Nat) (sort : FunctionSort) : Indexed (Token × List Token) := do
  let name ← expect .identifier (.functionName sort)
  let _ ← expect (.symbol .leftParen) (.parameterList sort)
  let params ← parameters n
  let _ ← expect (.symbol .rightParen) .parametersEnd
  let _ ← expect (.symbol .leftBrace) (.functionBody sort)
  return (name, params)

/-! ### Declarations and statements -/

mutual

def declaration : Nat → Indexed (Option Stmt)
  | 0 => outOfFuel
  | n + 1 => recover do
    match ← accept (.keyword .class_) with
    | some _ => classDeclaration n
    | none =>
    match ← accept (.keyword .fun_) with
    | some _ => return .function (← function n .function)
    | none =>
    match ← accept (.keyword .var) with
    | some _ => varDeclaration n
    | none => statement n

def classDeclaration : Nat → Indexed Stmt
  | 0 => outOfFuel
  | n + 1 => do
    let name ← expect .identifier .className
    let super ← superclass
    let _ ← expect (.symbol .leftBrace) .classBody
    let decls ← methods n
    let _ ← expect (.symbol .rightBrace) .classEnd
    return .class_ name super decls

/-- The loop of the methods of a class. -/
def methods : Nat → Indexed (List FunDecl)
  | 0 => outOfFuel
  | n + 1 =>
    round
      (do
        if ← atClosing true then return .leave []
        else return .again (← function n .method))
      fun first => do
        let rest ← methods n
        return first :: rest

def function : Nat → FunctionSort → Indexed FunDecl
  | 0, _ => outOfFuel
  | n + 1, sort => do
    let (name, params) ← functionHead n sort
    let body ← block n
    return .mk name params body

def statement : Nat → Indexed Stmt
  | 0 => outOfFuel
  | n + 1 => do
    match ← accept (.keyword .for_) with
    | some _ =>
      let (init, cond, step) ← forClauses n
      let body ← statement n
      return forLoop init (← conditionOrTrue cond) step body
    | none =>
    match ← accept (.keyword .if_) with
    | some _ =>
      let cond ← condition n .ifCondition .ifConditionEnd
      let thenBranch ← statement n
      match ← accept (.keyword .else_) with
      | some _ => return .ifElse cond thenBranch (some (← statement n))
      | none => return .ifElse cond thenBranch none
    | none =>
    match ← accept (.keyword .while_) with
    | some _ =>
      let cond ← condition n .whileCondition .whileConditionEnd
      return .while_ cond (← statement n)
    | none =>
    match ← accept (.keyword .return_) with
    | some keyword => returnStatement n keyword
    | none =>
    match ← accept (.symbol .leftBrace) with
    | some _ => return .block (← block n)
    | none =>
    match ← accept (.keyword .print) with
    | some _ => printStatement n
    | none => expressionStatement n

def block : Nat → Indexed (List Stmt)
  | 0 => outOfFuel
  | n + 1 => do
    let body ← declarations n true
    let _ ← expect (.symbol .rightBrace) .blockEnd
    return body

/-- The loop of the declarations of a program or, up to a closing brace, of a block. -/
def declarations : Nat → Bool → Indexed (List Stmt)
  | 0, _ => outOfFuel
  | n + 1, inBlock =>
    round
      (do
        if ← atClosing inBlock then return .leave []
        else return .again (← declaration n))
      fun first => do
        let rest ← declarations n inBlock
        return first.toList ++ rest

end

/-! ### Whole inputs -/

/-- Read a whole program. -/
def program (n : Nat) : Indexed (List Stmt) := declarations n false

def wholeExpression (n : Nat) : Indexed Expr := do
  let e ← expression n
  if ← atEnd then return e
  else failWith .endOfInput

/-- Read one expression that takes up all tokens. A mistake is recorded and leaves none. -/
def parsedExpr (n : Nat) : Indexed (Option Expr) := attempt (wholeExpression n) (pure ())

end Indexed

end Lox
