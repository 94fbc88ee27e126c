import Lox.Proofs.Tree.Shape

/-!
# The nodes of a tree

`Expr.nodes` and `Stmt.nodes` list the expression nodes of a tree, each as the expression that it is
the root of, in the order of their identities (`Expr.ids_eq`, `idsOfAll_eq`).
-/

namespace Lox

mutual

def Expr.nodes : Expr → List Expr
  | .literal id value => [.literal id value]
  | .grouping id inner => inner.nodes ++ [.grouping id inner]
  | .unary id op right => right.nodes ++ [.unary id op right]
  | .binary id left op right => left.nodes ++ right.nodes ++ [.binary id left op right]
  | .logical id left op right => left.nodes ++ right.nodes ++ [.logical id left op right]
  | .var id name => [.var id name]
  | .assign id name value => value.nodes ++ [.assign id name value]
  | .call id callee paren args => callee.nodes ++ nodesOfArgs args ++ [.call id callee paren args]
  | .get id object name => object.nodes ++ [.get id object name]
  | .set id object name value => value.nodes ++ object.nodes ++ [.set id object name value]
  | .this id keyword => [.this id keyword]
  | .super id keyword method => [.super id keyword method]
termination_by structural e => e

def nodesOfArgs : List Expr → List Expr
  | [] => []
  | e :: es => e.nodes ++ nodesOfArgs es
termination_by structural es => es

end

def Expr.nodes? : Option Expr → List Expr
  | some e => e.nodes
  | none => []

mutual

def Stmt.nodes : Stmt → List Expr
  | .expression e => e.nodes
  | .print e => e.nodes
  | .var _ init => Expr.nodes? init
  | .block body => nodesOfAll body
  | .ifElse cond thenBranch none => cond.nodes ++ thenBranch.nodes
  | .ifElse cond thenBranch (some elseBranch) =>
    cond.nodes ++ thenBranch.nodes ++ elseBranch.nodes
  | .while_ cond body => cond.nodes ++ body.nodes
  | .function decl => decl.nodes
  | .return_ _ value => Expr.nodes? value
  | .class_ _ superclass methods => Expr.nodes? superclass ++ nodesOfMethods methods
termination_by structural s => s

def nodesOfAll : List Stmt → List Expr
  | [] => []
  | s :: rest => s.nodes ++ nodesOfAll rest
termination_by structural body => body

def FunDecl.nodes : FunDecl → List Expr
  | .mk _ _ body => nodesOfAll body
termination_by structural d => d

def nodesOfMethods : List FunDecl → List Expr
  | [] => []
  | d :: ds => d.nodes ++ nodesOfMethods ds
termination_by structural ds => ds

end

/-- The name in a node that refers to a variable. -/
def Expr.variable? : Expr → Option Token
  | .var _ name | .assign _ name _ | .this _ name | .super _ name _ => some name
  | _ => none

theorem FunDecl.nodes_eq (d : FunDecl) : d.nodes = nodesOfAll d.body := by
  cases d with
  | mk name params body => rfl

theorem Expr.mem_nodes_self (e : Expr) : e ∈ e.nodes := by
  cases e <;> simp [Expr.nodes]

theorem mem_nodesOfMethods {d : FunDecl} {ds : List FunDecl} (hd : d ∈ ds) {e : Expr}
    (he : e ∈ d.nodes) : e ∈ nodesOfMethods ds := by
  induction ds with
  | nil => cases hd
  | cons d' ds ih =>
    rw [nodesOfMethods, List.mem_append]
    rcases List.mem_cons.mp hd with rfl | hd
    · exact .inl he
    · exact .inr (ih hd)

/-! ### Their identities -/

mutual

theorem Expr.ids_eq : ∀ e : Expr, e.ids = e.nodes.map Expr.id
  | .literal _ _ => rfl
  | .grouping id inner => by simp [Expr.ids, Expr.nodes, inner.ids_eq, Expr.id]
  | .unary id op right => by simp [Expr.ids, Expr.nodes, right.ids_eq, Expr.id]
  | .binary id left op right => by simp [Expr.ids, Expr.nodes, left.ids_eq, right.ids_eq, Expr.id]
  | .logical id left op right => by simp [Expr.ids, Expr.nodes, left.ids_eq, right.ids_eq, Expr.id]
  | .var _ _ => rfl
  | .assign id name value => by simp [Expr.ids, Expr.nodes, value.ids_eq, Expr.id]
  | .call id callee paren args => by
    simp [Expr.ids, Expr.nodes, callee.ids_eq, idsOfArgs_eq args, Expr.id]
  | .get id object name => by simp [Expr.ids, Expr.nodes, object.ids_eq, Expr.id]
  | .set id object name value => by
    simp [Expr.ids, Expr.nodes, value.ids_eq, object.ids_eq, Expr.id]
  | .this _ _ => rfl
  | .super _ _ _ => rfl
termination_by structural e => e

theorem idsOfArgs_eq : ∀ es : List Expr, idsOfArgs es = (nodesOfArgs es).map Expr.id
  | [] => rfl
  | e :: es => by simp [idsOfArgs, nodesOfArgs, e.ids_eq, idsOfArgs_eq es]
termination_by structural es => es

end

theorem Expr.ids?_eq (e : Option Expr) : Expr.ids? e = (Expr.nodes? e).map Expr.id := by
  cases e with
  | none => rfl
  | some e => exact e.ids_eq

mutual

theorem Stmt.ids_eq : ∀ s : Stmt, s.ids = s.nodes.map Expr.id
  | .expression e => e.ids_eq
  | .print e => e.ids_eq
  | .var _ init => Expr.ids?_eq init
  | .block body => idsOfAll_eq body
  | .ifElse cond thenBranch none => by
    simp [Stmt.ids, Stmt.nodes, cond.ids_eq, thenBranch.ids_eq]
  | .ifElse cond thenBranch (some elseBranch) => by
    simp [Stmt.ids, Stmt.nodes, cond.ids_eq, thenBranch.ids_eq, elseBranch.ids_eq]
  | .while_ cond body => by simp [Stmt.ids, Stmt.nodes, cond.ids_eq, body.ids_eq]
  | .function decl => decl.ids_eq
  | .return_ _ value => Expr.ids?_eq value
  | .class_ _ superclass methods => by
    simp [Stmt.ids, Stmt.nodes, Expr.ids?_eq superclass, idsOfMethods_eq methods]
termination_by structural s => s

theorem idsOfAll_eq : ∀ body : List Stmt, idsOfAll body = (nodesOfAll body).map Expr.id
  | [] => rfl
  | s :: rest => by simp [idsOfAll, nodesOfAll, s.ids_eq, idsOfAll_eq rest]
termination_by structural body => body

theorem FunDecl.ids_eq : ∀ d : FunDecl, d.ids = d.nodes.map Expr.id
  | .mk _ _ body => idsOfAll_eq body
termination_by structural d => d

theorem idsOfMethods_eq : ∀ ds : List FunDecl, idsOfMethods ds = (nodesOfMethods ds).map Expr.id
  | [] => rfl
  | d :: ds => by simp [idsOfMethods, nodesOfMethods, d.ids_eq, idsOfMethods_eq ds]
termination_by structural ds => ds

end

end Lox
