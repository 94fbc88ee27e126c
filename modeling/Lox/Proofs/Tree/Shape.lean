import Lox.Grammar.Expression

/-!
# The shape of a parsed tree

Not every tree can be read from tokens. `Expr.Formed P` and `Stmt.Formed P` say what holds of those
that can: operators are operators of their sort, names are identifiers, a superclass is a variable,
the branches of `if` and the body of `while` are no declarations, and all tokens satisfy `P`.

`Expr.ids` and `Stmt.ids` list the identities of the expression nodes of a tree, in the order in
which the static walk visits them.
-/

namespace Lox

/-- Logical operators short-circuit; the others are binary. -/
def Level.isLogical : Level → Bool
  | .or | .and => true
  | _ => false

/-- A token of kind `k` that satisfies `P`. -/
def Token.Is (P : Token → Prop) (k : TokenKind) (t : Token) : Prop := t.kind = k ∧ P t

/-- A statement that declares a name in the scope it stands in. -/
def Stmt.isDeclaration : Stmt → Bool
  | .var _ _ | .function _ | .class_ _ _ _ => true
  | _ => false

/-- The name that a statement declares. -/
def Stmt.declared? : Stmt → Option Token
  | .var name _ => some name
  | .function decl => some decl.name
  | .class_ name _ _ => some name
  | _ => none

/-- A construct that opens a scope. -/
inductive Site where
  | block (body : List Stmt)
  /-- The parameters and the body of a function. -/
  | frame (decl : FunDecl)
  /-- The scope of `this` around a method. -/
  | receiver (method : FunDecl)
  /-- The scope of `super` around the methods of a class. -/
  | parent (name : Token) (methods : List FunDecl)

variable (P : Token → Prop)

mutual

def Expr.Formed : Expr → Prop
  | .literal _ _ => True
  | .grouping _ inner => inner.Formed
  | .unary _ op right => (isUnaryOperator op.kind = true ∧ P op) ∧ right.Formed
  | .binary _ left op right =>
    (∃ l : Level, l.isLogical = false ∧ l.hasOperator op.kind = true ∧ P op) ∧
      left.Formed ∧ right.Formed
  | .logical _ left op right =>
    (∃ l : Level, l.isLogical = true ∧ l.hasOperator op.kind = true ∧ P op) ∧
      left.Formed ∧ right.Formed
  | .var _ name => name.Is P .identifier
  | .assign _ name value => name.Is P .identifier ∧ value.Formed
  | .call _ callee paren args =>
    paren.Is P (.symbol .rightParen) ∧ callee.Formed ∧ formedArgs args
  | .get _ object name => name.Is P .identifier ∧ object.Formed
  | .set _ object name value => name.Is P .identifier ∧ object.Formed ∧ value.Formed
  | .this _ keyword => keyword.Is P (.keyword .this)
  | .super _ keyword method => keyword.Is P (.keyword .super) ∧ method.Is P .identifier
termination_by structural e => e

def formedArgs : List Expr → Prop
  | [] => True
  | e :: es => e.Formed ∧ formedArgs es
termination_by structural es => es

end

/-- An expression that may be missing. -/
def Expr.Formed? : Option Expr → Prop
  | some e => e.Formed P
  | none => True

/-- A superclass is given by its name. -/
def Expr.FormedSuperclass : Option Expr → Prop
  | some (.var _ name) => name.Is P .identifier
  | some _ => False
  | none => True

mutual

def Stmt.Formed : Stmt → Prop
  | .expression e => e.Formed P
  | .print e => e.Formed P
  | .var name init => name.Is P .identifier ∧ Expr.Formed? P init
  | .block body => formedAll body
  | .ifElse cond thenBranch none =>
    cond.Formed P ∧ thenBranch.isDeclaration = false ∧ thenBranch.Formed
  | .ifElse cond thenBranch (some elseBranch) =>
    cond.Formed P ∧ (thenBranch.isDeclaration = false ∧ thenBranch.Formed) ∧
      elseBranch.isDeclaration = false ∧ elseBranch.Formed
  | .while_ cond body => cond.Formed P ∧ body.isDeclaration = false ∧ body.Formed
  | .function decl => decl.Formed
  | .return_ keyword value => keyword.Is P (.keyword .return_) ∧ Expr.Formed? P value
  | .class_ name superclass methods =>
    name.Is P .identifier ∧ Expr.FormedSuperclass P superclass ∧ formedMethods methods
termination_by structural s => s

def formedAll : List Stmt → Prop
  | [] => True
  | s :: rest => s.Formed ∧ formedAll rest
termination_by structural body => body

def FunDecl.Formed : FunDecl → Prop
  | .mk name params body =>
    name.Is P .identifier ∧ (∀ t ∈ params, Token.Is P .identifier t) ∧ formedAll body
termination_by structural d => d

def formedMethods : List FunDecl → Prop
  | [] => True
  | d :: ds => d.Formed ∧ formedMethods ds
termination_by structural ds => ds

end

/-! ### Node identities -/

mutual

def Expr.ids : Expr → List NodeId
  | .literal id _ => [id]
  | .grouping id inner => inner.ids ++ [id]
  | .unary id _ right => right.ids ++ [id]
  | .binary id left _ right => left.ids ++ right.ids ++ [id]
  | .logical id left _ right => left.ids ++ right.ids ++ [id]
  | .var id _ => [id]
  | .assign id _ value => value.ids ++ [id]
  | .call id callee _ args => callee.ids ++ idsOfArgs args ++ [id]
  | .get id object _ => object.ids ++ [id]
  | .set id object _ value => value.ids ++ object.ids ++ [id]
  | .this id _ => [id]
  | .super id _ _ => [id]
termination_by structural e => e

def idsOfArgs : List Expr → List NodeId
  | [] => []
  | e :: es => e.ids ++ idsOfArgs es
termination_by structural es => es

end

def Expr.ids? : Option Expr → List NodeId
  | some e => e.ids
  | none => []

mutual

def Stmt.ids : Stmt → List NodeId
  | .expression e => e.ids
  | .print e => e.ids
  | .var _ init => Expr.ids? init
  | .block body => idsOfAll body
  | .ifElse cond thenBranch none => cond.ids ++ thenBranch.ids
  | .ifElse cond thenBranch (some elseBranch) => cond.ids ++ thenBranch.ids ++ elseBranch.ids
  | .while_ cond body => cond.ids ++ body.ids
  | .function decl => decl.ids
  | .return_ _ value => Expr.ids? value
  | .class_ _ superclass methods => Expr.ids? superclass ++ idsOfMethods methods
termination_by structural s => s

def idsOfAll : List Stmt → List NodeId
  | [] => []
  | s :: rest => s.ids ++ idsOfAll rest
termination_by structural body => body

def FunDecl.ids : FunDecl → List NodeId
  | .mk _ _ body => idsOfAll body
termination_by structural d => d

def idsOfMethods : List FunDecl → List NodeId
  | [] => []
  | d :: ds => d.ids ++ idsOfMethods ds
termination_by structural ds => ds

end

end Lox
