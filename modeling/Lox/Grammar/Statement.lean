import Lox.Grammar.Expression

/-!
# Reading programs

    declaration → "class" IDENTIFIER ( "<" IDENTIFIER )? "{" function* "}" | "fun" function
                | "var" IDENTIFIER ( "=" expression )? ";" | statement
    function    → IDENTIFIER "(" parameters? ")" block
    statement   → "for" "(" ( variable | expression ";" | ";" ) expression? ";" expression? ")"
                  statement
                | "if" "(" expression ")" statement ( "else" statement )?
                | "while" "(" expression ")" statement | "return" expression? ";" | block
                | "print" expression ";" | expression ";"
    block       → "{" declaration* "}"

A `for` loop has no node of its own: `forLoop` builds the block and the `while` loop that it stands
for.

A mistake anywhere in a declaration is recorded, the declaration is dropped, and reading goes on at
the next place where a statement may start. So reading a program never fails.
-/

namespace Lox

/-- What a program read from tokens consists of. -/
structure Program where
  statements : List Stmt
  complaints : List Complaint
  made : Nat

/-- The loop that `for (init; cond; step) body` stands for. -/
def forLoop (init : Option Stmt) (cond : Expr) (step : Option Expr) (body : Stmt) : Stmt :=
  let body := match step with
    | some e => .block [body, .expression e]
    | none => body
  let loop := Stmt.while_ cond body
  match init with
  | some s => .block [s, loop]
  | none => loop

namespace Parse

/-! ### Statements without parts of their own kind -/

/-- An expression, unless a token of kind `k` comes first. -/
def expressionUnless (n : Nat) (k : TokenKind) : Parse (Option Expr) := do
  if ← check k then return none
  else return some (← expression n)

/-- A variable declaration after its keyword. -/
def varDeclaration (n : Nat) : Parse Stmt := do
  let name ← expect .identifier .variableName
  match ← accept (.symbol .equal) with
  | some _ =>
    let init ← expression n
    let _ ← expect (.symbol .semicolon) .variableEnd
    return .var name (some init)
  | none =>
    let _ ← expect (.symbol .semicolon) .variableEnd
    return .var name none

def expressionStatement (n : Nat) : Parse Stmt := do
  let e ← expression n
  let _ ← expect (.symbol .semicolon) .expressionStatementEnd
  return .expression e

def printStatement (n : Nat) : Parse Stmt := do
  let e ← expression n
  let _ ← expect (.symbol .semicolon) .printEnd
  return .print e

def returnStatement (n : Nat) (keyword : Token) : Parse Stmt := do
  let value ← expressionUnless n (.symbol .semicolon)
  let _ ← expect (.symbol .semicolon) .returnEnd
  return .return_ keyword value

/-- The first clause of a `for` loop, with its semicolon. -/
def forInit (n : Nat) : Parse (Option Stmt) := do
  match ← accept (.symbol .semicolon) with
  | some _ => return none
  | none =>
  match ← accept (.keyword .var) with
  | some _ => return some (← varDeclaration n)
  | none => return some (← expressionStatement n)

/-- The clauses of a `for` loop between its parentheses. -/
def forClauses (n : Nat) : Parse (Option Stmt × Option Expr × Option Expr) := do
  let _ ← expect (.symbol .leftParen) .forClauses
  let init ← forInit n
  let cond ← expressionUnless n (.symbol .semicolon)
  let _ ← expect (.symbol .semicolon) .loopConditionEnd
  let step ← expressionUnless n (.symbol .rightParen)
  let _ ← expect (.symbol .rightParen) .forClausesEnd
  return (init, cond, step)

/-- The condition of a loop that has none. -/
def conditionOrTrue : Option Expr → Parse Expr
  | some e => pure e
  | none => do return .literal (← freshId) (.bool true)

/-- A condition between parentheses. -/
def condition (n : Nat) (opening closing : Expected) : Parse Expr := do
  let _ ← expect (.symbol .leftParen) opening
  let cond ← expression n
  let _ ← expect (.symbol .rightParen) closing
  return cond

/-- The superclass of a class, if one is named. -/
def superclass : Parse (Option Expr) := do
  match ← accept (.symbol .less) with
  | some _ =>
    let name ← expect .identifier .superclassName
    return some (.var (← freshId) name)
  | none => return none

/-- One parameter or more, after `count` others. -/
def parametersFrom : Nat → Nat → Parse (List Token)
  | 0, _ => outOfFuel
  | n + 1, count => do
    checkArity count .tooManyParameters
    let name ← expect .identifier .parameterName
    match ← accept (.symbol .comma) with
    | none => return [name]
    | some _ =>
      let rest ← parametersFrom n (count + 1)
      return name :: rest

/-- The parameters of a function, up to the closing parenthesis. -/
def parameters (n : Nat) : Parse (List Token) := do
  if ← check (.symbol .rightParen) then return []
  else parametersFrom n 0

/-- The name and the parameters of a function, up to the opening brace of its body. -/
def functionHead (n : Nat) (sort : FunctionSort) : Parse (Token × List Token) := do
  let name ← expect .identifier (.functionName sort)
  let _ ← expect (.symbol .leftParen) (.parameterList sort)
  let params ← parameters n
  let _ ← expect (.symbol .rightParen) .parametersEnd
  let _ ← expect (.symbol .leftBrace) (.functionBody sort)
  return (name, params)

/-! ### Declarations and statements -/

mutual

/-- A declaration, or nothing if there was a mistake in it. -/
def declaration : Nat → Parse (Option Stmt)
  | 0 => outOfFuel
  | n + 1 => recover do
    match ← accept (.keyword .class_) with
    | some _ => classDeclaration n
    | none =>
    match ← accept (.keyword .fun_) with
    | some _ => return .function (← function n .function)
    | none =>
    match ← accept (.keyword .var) with
    | some _ => varDeclaration n
    | none => statement n

/-- A class after its keyword. -/
def classDeclaration : Nat → Parse Stmt
  | 0 => outOfFuel
  | n + 1 => do
    let name ← expect .identifier .className
    let super ← superclass
    let _ ← expect (.symbol .leftBrace) .classBody
    let decls ← methods n
    let _ ← expect (.symbol .rightBrace) .classEnd
    return .class_ name super decls

/-- The methods of a class, up to its closing brace. -/
def methods : Nat → Parse (List FunDecl)
  | 0 => outOfFuel
  | n + 1 => do
    if ← atClosing true then return []
    else
      let first ← function n .method
      let rest ← methods n
      return first :: rest

/-- A function from its name on. -/
def function : Nat → FunctionSort → Parse FunDecl
  | 0, _ => outOfFuel
  | n + 1, sort => do
    let (name, params) ← functionHead n sort
    let body ← block n
    return .mk name params body

def statement : Nat → Parse Stmt
  | 0 => outOfFuel
  | n + 1 => do
    match ← accept (.keyword .for_) with
    | some _ =>
      let (init, cond, step) ← forClauses n
      let body ← statement n
      return forLoop init (← conditionOrTrue cond) step body
    | none =>
    match ← accept (.keyword .if_) with
    | some _ =>
      let cond ← condition n .ifCondition .ifConditionEnd
      let thenBranch ← statement n
      match ← accept (.keyword .else_) with
      | some _ => return .ifElse cond thenBranch (some (← statement n))
      | none => return .ifElse cond thenBranch none
    | none =>
    match ← accept (.keyword .while_) with
    | some _ =>
      let cond ← condition n .whileCondition .whileConditionEnd
      return .while_ cond (← statement n)
    | none =>
    match ← accept (.keyword .return_) with
    | some keyword => returnStatement n keyword
    | none =>
    match ← accept (.symbol .leftBrace) with
    | some _ => return .block (← block n)
    | none =>
    match ← accept (.keyword .print) with
    | some _ => printStatement n
    | none => expressionStatement n

/-- The declarations of a block and its closing brace. -/
def block : Nat → Parse (List Stmt)
  | 0 => outOfFuel
  | n + 1 => do
    let body ← declarations n true
    let _ ← expect (.symbol .rightBrace) .blockEnd
    return body

/-- Declarations up to the end of file, and within a block up to its closing brace. -/
def declarations : Nat → Bool → Parse (List Stmt)
  | 0, _ => outOfFuel
  | n + 1, inBlock => do
    if ← atClosing inBlock then return []
    else
      let first ← declaration n
      let rest ← declarations n inBlock
      return first.toList ++ rest

end

/-- Fuel that suffices for a number of tokens. -/
def fuelFor (tokens : Nat) : Nat := 32 * (tokens + 1)

end Parse

namespace Program

/-- Read a whole program. Nothing is read if the fuel is too small, which `Parse.fuelFor` never is.
-/
def ofTokens (tokens : List Token) (made : Nat) : Program :=
  match Parse.declarations (Parse.fuelFor tokens.length) false (Cursor.ofTokens tokens made) with
  | .ok statements c => ⟨statements, c.complaints, c.made⟩
  | .fail x c => ⟨[], (c.complain x).complaints, c.made⟩
  | .outOfFuel => ⟨[], [], made⟩

end Program

/-- What an expression read from tokens consists of. The expression is missing if there was a
mistake that left none. -/
structure ParsedExpr where
  expr? : Option Expr
  complaints : List Complaint
  made : Nat

namespace ParsedExpr

/-- Read one expression that takes up all tokens. -/
def ofTokens (tokens : List Token) (made : Nat) : ParsedExpr :=
  match Parse.wholeExpression (Parse.fuelFor tokens.length) (Cursor.ofTokens tokens made) with
  | .ok e c => ⟨some e, c.complaints, c.made⟩
  | .fail x c => ⟨none, (c.complain x).complaints, c.made⟩
  | .outOfFuel => ⟨none, [], made⟩

end ParsedExpr

end Lox
