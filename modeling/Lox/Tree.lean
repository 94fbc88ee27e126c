import Lox.Token

/-!
# Syntax trees

Expressions and statements. Trees keep the tokens that later stages need, to name variables and to
blame in reports. Every expression node has an identity, a `NodeId`, under which the distance of a
variable use to its binding is recorded. Identities have 32 bits and are handed out in order, so
they come again when that many nodes have been made.
-/

namespace Lox

/-- The identity of an expression node. -/
abbrev NodeId := UInt32

/-- A constant written in the source. -/
inductive Literal where
  | nil
  | bool (b : Bool)
  | number (n : Number)
  | string (s : String)
  deriving DecidableEq, Inhabited

inductive Expr where
  | literal (id : NodeId) (value : Literal)
  | grouping (id : NodeId) (inner : Expr)
  | unary (id : NodeId) (op : Token) (right : Expr)
  | binary (id : NodeId) (left : Expr) (op : Token) (right : Expr)
  /-- A short-circuit operator. -/
  | logical (id : NodeId) (left : Expr) (op : Token) (right : Expr)
  | var (id : NodeId) (name : Token)
  | assign (id : NodeId) (name : Token) (value : Expr)
  /-- A call, with its closing parenthesis. -/
  | call (id : NodeId) (callee : Expr) (paren : Token) (args : List Expr)
  | get (id : NodeId) (object : Expr) (name : Token)
  | set (id : NodeId) (object : Expr) (name : Token) (value : Expr)
  | this (id : NodeId) (keyword : Token)
  | super (id : NodeId) (keyword : Token) (method : Token)
  deriving Inhabited

mutual

inductive Stmt where
  | expression (e : Expr)
  | print (e : Expr)
  | var (name : Token) (init : Option Expr)
  | block (body : List Stmt)
  | ifElse (cond : Expr) (thenBranch : Stmt) (elseBranch : Option Stmt)
  | while_ (cond : Expr) (body : Stmt)
  | function (decl : FunDecl)
  | return_ (keyword : Token) (value : Option Expr)
  /-- A class; the superclass of a parsed class is always a variable. -/
  | class_ (name : Token) (superclass : Option Expr) (methods : List FunDecl)

/-- The declaration of a function or method. -/
inductive FunDecl where
  | mk (name : Token) (params : List Token) (body : List Stmt)

end

instance : Inhabited Stmt := ⟨.block []⟩

instance : Inhabited FunDecl := ⟨.mk default [] []⟩

namespace Expr

def id : Expr → NodeId
  | literal id _ | grouping id _ | unary id _ _ | binary id _ _ _ | logical id _ _ _ | var id _
  | assign id _ _ | call id _ _ _ | get id _ _ | set id _ _ _ | this id _ | super id _ _ => id

end Expr

namespace FunDecl

def name : FunDecl → Token
  | mk name _ _ => name

def params : FunDecl → List Token
  | mk _ params _ => params

def body : FunDecl → List Stmt
  | mk _ _ body => body

def arity (d : FunDecl) : Nat := d.params.length

/-- The name of the method that initializes an instance. -/
def initializerName : String := "init"

/-- As a method, this declaration initializes the instances of its class. -/
def isInitializer (d : FunDecl) : Bool := d.name.lexeme == initializerName

end FunDecl

end Lox
