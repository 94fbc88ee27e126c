import Mathlib.Data.List.Forall2
import Mathlib.Logic.Equiv.Basic
import Lox.Proofs.Scoping.Names
import Lox.Proofs.Tree.Nodes

/-!
# Renaming a local variable

A local variable or parameter of a program is given another name: at its declaration, and at exactly
those occurrences that the static walk has traced to the scope of that declaration. Which these are
is read from the recorded distances. On the way into a tree the renaming carries a list of *marks*,
one for each open scope, innermost first: an occurrence is renamed if the scope that lies at its
recorded distance is marked. Scopes are told apart by their `Path` in the tree.

`Stmt.Renamed` is the relation between code and renamed code that the proofs work with. It holds of
unchanged code where no scope is marked, and of the result of the renaming where the new name does
not occur.
-/

namespace Lox

/-- An old name, a new name, and where the occurrences of variables lead. -/
structure Renaming where
  old : String
  new : String
  distances : Distances

/-- For each open scope, innermost first, whether its variable is renamed. -/
abbrev Marks := List Bool

/-- The place of a statement or function in a tree, innermost index first. -/
abbrev Path := List Nat

namespace Renaming

variable (ρ : Renaming)

/-- A token, with the new name for the old one. -/
def token (t : Token) : Token := if t.lexeme = ρ.old then { t with lexeme := ρ.new } else t

/-- A name declared in a scope. -/
def declaration (marked : Bool) (t : Token) : Token := if marked then ρ.token t else t

/-- The scope at the recorded distance of a node is marked. -/
def reaches (marks : Marks) (id : NodeId) : Bool :=
  match ρ.distances.find? id with
  | some distance => marks.getD distance false
  | none => false

/-- An occurrence of a variable. -/
def occurrence (marks : Marks) (id : NodeId) (t : Token) : Token :=
  ρ.declaration (ρ.reaches marks id) t

end Renaming

/-- A statement list declares a name with `var`. -/
def declaresVar (x : String) (body : List Stmt) : Bool :=
  body.any fun
    | .var name _ => name.lexeme == x
    | _ => false

/-- A function has a parameter or, in its body, a variable with a name. -/
def FunDecl.declaresVar (x : String) (d : FunDecl) : Bool :=
  d.params.any (fun t => t.lexeme == x) || Lox.declaresVar x d.body

/-! ### The renamed program -/

section Function

variable (ρ : Renaming)

mutual

def Expr.rename (marks : Marks) : Expr → Expr
  | .literal id value => .literal id value
  | .grouping id inner => .grouping id (inner.rename marks)
  | .unary id op right => .unary id op (right.rename marks)
  | .binary id left op right => .binary id (left.rename marks) op (right.rename marks)
  | .logical id left op right => .logical id (left.rename marks) op (right.rename marks)
  | .var id name => .var id (ρ.occurrence marks id name)
  | .assign id name value => .assign id (ρ.occurrence marks id name) (value.rename marks)
  | .call id callee paren args => .call id (callee.rename marks) paren (renameArgs marks args)
  | .get id object name => .get id (object.rename marks) name
  | .set id object name value => .set id (object.rename marks) name (value.rename marks)
  | .this id keyword => .this id keyword
  | .super id keyword method => .super id keyword method
termination_by structural e => e

def renameArgs (marks : Marks) : List Expr → List Expr
  | [] => []
  | e :: es => e.rename marks :: renameArgs marks es
termination_by structural es => es

end

variable (target : Path)

mutual

/-- A statement at a path, renamed in the scope at the target path if this is inside. -/
def Stmt.rename (marks : Marks) (path : Path) : Stmt → Stmt
  | .expression e => .expression (e.rename ρ marks)
  | .print e => .print (e.rename ρ marks)
  | .var name none => .var (ρ.declaration (marks.headD false) name) none
  | .var name (some init) =>
    .var (ρ.declaration (marks.headD false) name) (some (init.rename ρ marks))
  | .block body =>
    .block (renameAll ((path == target && declaresVar ρ.old body) :: marks) path 0 body)
  | .ifElse cond thenBranch none =>
    .ifElse (cond.rename ρ marks) (thenBranch.rename marks (0 :: path)) none
  | .ifElse cond thenBranch (some elseBranch) =>
    .ifElse (cond.rename ρ marks) (thenBranch.rename marks (0 :: path))
      (some (elseBranch.rename marks (1 :: path)))
  | .while_ cond body => .while_ (cond.rename ρ marks) (body.rename marks (0 :: path))
  | .function decl => .function (decl.rename marks path)
  | .return_ keyword none => .return_ keyword none
  | .return_ keyword (some value) => .return_ keyword (some (value.rename ρ marks))
  | .class_ name none methods =>
    .class_ name none (renameMethods (false :: marks) path 0 methods)
  | .class_ name (some superclass) methods =>
    .class_ name (some (superclass.rename ρ marks))
      (renameMethods (false :: false :: marks) path 0 methods)
termination_by structural s => s

def renameAll (marks : Marks) (path : Path) (i : Nat) : List Stmt → List Stmt
  | [] => []
  | s :: rest => s.rename marks (i :: path) :: renameAll marks path (i + 1) rest
termination_by structural body => body

/-- A function, whose parameters and body share one scope. -/
def FunDecl.rename (marks : Marks) (path : Path) : FunDecl → FunDecl
  | .mk name params body =>
    let marked := path == target && (FunDecl.mk name params body).declaresVar ρ.old
    .mk name (params.map (ρ.declaration marked)) (renameAll (marked :: marks) path 0 body)
termination_by structural d => d

def renameMethods (marks : Marks) (path : Path) (i : Nat) : List FunDecl → List FunDecl
  | [] => []
  | d :: ds => d.rename marks (i :: path) :: renameMethods marks path (i + 1) ds
termination_by structural ds => ds

end

end Function

/-- A program with the local variable or parameter `ρ.old` of the scope at a path renamed. -/
def renameLocal (ρ : Renaming) (target : Path) (statements : List Stmt) : List Stmt :=
  renameAll ρ target [] [] 0 statements

/-! ### Names in scopes -/

namespace Renaming

variable {ρ : Renaming} {marked : Bool} {marks : Marks} {t t' : Token} {id : NodeId}

/-- The names of a scope after the renaming: in a marked scope, the two names change places. -/
def keys (ρ : Renaming) (marked : Bool) : Equiv.Perm String :=
  if marked then Equiv.swap ρ.old ρ.new else Equiv.refl String

@[simp] theorem keys_false (ρ : Renaming) (z : String) : ρ.keys false z = z := rfl

theorem keys_of_ne (ρ : Renaming) (marked : Bool) {z : String}
    (h : marked = true → z ≠ ρ.old ∧ z ≠ ρ.new) : ρ.keys marked z = z := by
  cases marked with
  | false => rfl
  | true => exact Equiv.swap_apply_of_ne_of_ne (h rfl).1 (h rfl).2

/-- A token and the same token after the renaming, in a scope where the new name does not occur. -/
structure Renames (ρ : Renaming) (marked : Bool) (t t' : Token) : Prop where
  eq : t' = ρ.declaration marked t
  fresh : marked = true → t.lexeme ≠ ρ.new

theorem Renames.lexeme (h : ρ.Renames marked t t') : t'.lexeme = ρ.keys marked t.lexeme := by
  rw [h.eq]
  cases marked with
  | false => rfl
  | true =>
    show (ρ.token t).lexeme = Equiv.swap ρ.old ρ.new t.lexeme
    unfold token
    split_ifs with hold
    · rw [hold, Equiv.swap_apply_left]
    · rw [Equiv.swap_apply_of_ne_of_ne hold (h.fresh rfl)]

theorem renames_unmarked (ρ : Renaming) (t : Token) : ρ.Renames false t t :=
  ⟨rfl, fun h => nomatch h⟩

theorem renames_declaration (h : t.lexeme ≠ ρ.new) (marked : Bool) :
    ρ.Renames marked t (ρ.declaration marked t) :=
  ⟨rfl, fun _ => h⟩

/-- A name that the renaming leaves alone. -/
def Keeps (ρ : Renaming) (marked : Bool) (t : Token) : Prop :=
  marked = true → t.lexeme ≠ ρ.old ∧ t.lexeme ≠ ρ.new

theorem Keeps.renames (h : ρ.Keeps marked t) : ρ.Renames marked t t := by
  refine ⟨?_, fun hmarked => (h hmarked).2⟩
  unfold declaration token
  split_ifs with hmarked hold
  · exact absurd hold (h hmarked).1
  · rfl
  · rfl

/-- Neither name is that of a receiver or superclass. -/
structure Proper (ρ : Renaming) : Prop where
  this : "this" ≠ ρ.old ∧ "this" ≠ ρ.new
  super : "super" ≠ ρ.old ∧ "super" ≠ ρ.new

theorem declaration_cases (ρ : Renaming) (marked : Bool) (t : Token) :
    ρ.declaration marked t = t ∨
      t.lexeme = ρ.old ∧ ρ.declaration marked t = { t with lexeme := ρ.new } := by
  unfold declaration token
  split_ifs with hmarked hold
  · exact Or.inr ⟨hold, rfl⟩
  · exact Or.inl rfl
  · exact Or.inl rfl

/-- Nothing is marked. -/
def Unmarked (marks : Marks) : Prop := ∀ b ∈ marks, b = false

theorem unmarked_nil : Unmarked [] := fun _ hb => absurd hb List.not_mem_nil

theorem Unmarked.push (h : Unmarked marks) : Unmarked (false :: marks) := by
  intro b hb
  rcases List.mem_cons.mp hb with rfl | hb
  · rfl
  · exact h b hb

theorem Unmarked.getD (h : Unmarked marks) (k : Nat) : marks.getD k false = false := by
  rw [List.getD_eq_getElem?_getD]
  cases hk : marks[k]? with
  | none => rfl
  | some b => exact h b (List.mem_of_getElem? hk)

theorem Unmarked.headD (h : Unmarked marks) : marks.headD false = false := by
  cases marks with
  | nil => rfl
  | cons b marks => exact h b List.mem_cons_self

theorem Unmarked.reaches (h : Unmarked marks) (id : NodeId) : ρ.reaches marks id = false := by
  unfold Renaming.reaches
  split
  · exact h.getD _
  · rfl

end Renaming

/-! ### Code and renamed code -/

/-- A renaming, and which token may stand for which other one in the renamed code. -/
structure Exchange extends Renaming where
  exchanges : Token → Token → Prop

/-- Two nodes of the same identity refer to a variable, by these two tokens. -/
def Replaced (nodes nodes' : List Expr) (t t' : Token) : Prop :=
  ∃ e ∈ nodes, ∃ e' ∈ nodes', e'.id = e.id ∧ e.variable? = some t ∧ e'.variable? = some t'

variable (ρ : Exchange)

mutual

inductive Expr.Renamed (marks : Marks) : Expr → Expr → Prop where
  | literal (id : NodeId) (value : Literal) :
    Expr.Renamed marks (.literal id value) (.literal id value)
  | grouping {inner inner' : Expr} (id : NodeId) (h : Expr.Renamed marks inner inner') :
    Expr.Renamed marks (.grouping id inner) (.grouping id inner')
  | unary {right right' : Expr} (id : NodeId) (op : Token) (h : Expr.Renamed marks right right') :
    Expr.Renamed marks (.unary id op right) (.unary id op right')
  | binary {left left' right right' : Expr} (id : NodeId) (op : Token)
    (hleft : Expr.Renamed marks left left') (hright : Expr.Renamed marks right right') :
    Expr.Renamed marks (.binary id left op right) (.binary id left' op right')
  | logical {left left' right right' : Expr} (id : NodeId) (op : Token)
    (hleft : Expr.Renamed marks left left') (hright : Expr.Renamed marks right right') :
    Expr.Renamed marks (.logical id left op right) (.logical id left' op right')
  | var {name name' : Token} (id : NodeId) (h : ρ.Renames (ρ.reaches marks id) name name')
    (hplace : name' ≠ name → ρ.exchanges name name') :
    Expr.Renamed marks (.var id name) (.var id name')
  | assign {name name' : Token} {value value' : Expr} (id : NodeId)
    (h : ρ.Renames (ρ.reaches marks id) name name')
    (hplace : name' ≠ name → ρ.exchanges name name') (hvalue : Expr.Renamed marks value value') :
    Expr.Renamed marks (.assign id name value) (.assign id name' value')
  | call {callee callee' : Expr} {args args' : List Expr} (id : NodeId) (paren : Token)
    (hcallee : Expr.Renamed marks callee callee') (hargs : RenamedArgs marks args args') :
    Expr.Renamed marks (.call id callee paren args) (.call id callee' paren args')
  | get {object object' : Expr} (id : NodeId) (name : Token)
    (h : Expr.Renamed marks object object') :
    Expr.Renamed marks (.get id object name) (.get id object' name)
  | set {object object' value value' : Expr} (id : NodeId) (name : Token)
    (hobject : Expr.Renamed marks object object') (hvalue : Expr.Renamed marks value value') :
    Expr.Renamed marks (.set id object name value) (.set id object' name value')
  | this {keyword : Token} (id : NodeId)
    (h : ρ.Renames (ρ.reaches marks id) keyword keyword) :
    Expr.Renamed marks (.this id keyword) (.this id keyword)
  | super {keyword : Token} (id : NodeId) (method : Token)
    (h : ρ.Renames (ρ.reaches marks id) keyword keyword) :
    Expr.Renamed marks (.super id keyword method) (.super id keyword method)

inductive RenamedArgs (marks : Marks) : List Expr → List Expr → Prop where
  | nil : RenamedArgs marks [] []
  | cons {e e' : Expr} {es es' : List Expr} (h : Expr.Renamed marks e e')
    (hrest : RenamedArgs marks es es') : RenamedArgs marks (e :: es) (e' :: es')

end

mutual

inductive Stmt.Renamed : Marks → Stmt → Stmt → Prop where
  | expression {marks : Marks} {e e' : Expr} (h : e.Renamed ρ marks e') :
    Stmt.Renamed marks (.expression e) (.expression e')
  | print {marks : Marks} {e e' : Expr} (h : e.Renamed ρ marks e') :
    Stmt.Renamed marks (.print e) (.print e')
  | var {marks : Marks} {name name' : Token} (h : ρ.Renames (marks.headD false) name name') :
    Stmt.Renamed marks (.var name none) (.var name' none)
  | varInit {marks : Marks} {name name' : Token} {init init' : Expr}
    (h : ρ.Renames (marks.headD false) name name') (hinit : init.Renamed ρ marks init') :
    Stmt.Renamed marks (.var name (some init)) (.var name' (some init'))
  | block {marks : Marks} {body body' : List Stmt} (marked : Bool)
    (h : RenamedAll (marked :: marks) body body') :
    Stmt.Renamed marks (.block body) (.block body')
  | ifThen {marks : Marks} {cond cond' : Expr} {thenBranch thenBranch' : Stmt}
    (hcond : cond.Renamed ρ marks cond') (hthen : Stmt.Renamed marks thenBranch thenBranch') :
    Stmt.Renamed marks (.ifElse cond thenBranch none) (.ifElse cond' thenBranch' none)
  | ifElse {marks : Marks} {cond cond' : Expr}
    {thenBranch thenBranch' elseBranch elseBranch' : Stmt}
    (hcond : cond.Renamed ρ marks cond') (hthen : Stmt.Renamed marks thenBranch thenBranch')
    (helse : Stmt.Renamed marks elseBranch elseBranch') :
    Stmt.Renamed marks (.ifElse cond thenBranch (some elseBranch))
      (.ifElse cond' thenBranch' (some elseBranch'))
  | while_ {marks : Marks} {cond cond' : Expr} {body body' : Stmt}
    (hcond : cond.Renamed ρ marks cond') (hbody : Stmt.Renamed marks body body') :
    Stmt.Renamed marks (.while_ cond body) (.while_ cond' body')
  | function {marks : Marks} {decl decl' : FunDecl}
    (hname : ρ.Keeps (marks.headD false) decl.name) (h : FunDecl.Renamed marks decl decl') :
    Stmt.Renamed marks (.function decl) (.function decl')
  | return_ (marks : Marks) (keyword : Token) :
    Stmt.Renamed marks (.return_ keyword none) (.return_ keyword none)
  | returnValue {marks : Marks} {value value' : Expr} (keyword : Token)
    (h : value.Renamed ρ marks value') :
    Stmt.Renamed marks (.return_ keyword (some value)) (.return_ keyword (some value'))
  | class_ {marks : Marks} {name : Token} {methods methods' : List FunDecl}
    (hname : ρ.Keeps (marks.headD false) name)
    (h : RenamedMethods (false :: marks) methods methods') :
    Stmt.Renamed marks (.class_ name none methods) (.class_ name none methods')
  | subclass {marks : Marks} {name : Token} {superclass superclass' : Expr}
    {methods methods' : List FunDecl} (hname : ρ.Keeps (marks.headD false) name)
    (hsuperclass : superclass.Renamed ρ marks superclass')
    (h : RenamedMethods (false :: false :: marks) methods methods') :
    Stmt.Renamed marks (.class_ name (some superclass) methods)
      (.class_ name (some superclass') methods')

inductive RenamedAll : Marks → List Stmt → List Stmt → Prop where
  | nil (marks : Marks) : RenamedAll marks [] []
  | cons {marks : Marks} {s s' : Stmt} {rest rest' : List Stmt} (h : Stmt.Renamed marks s s')
    (hrest : RenamedAll marks rest rest') : RenamedAll marks (s :: rest) (s' :: rest')

inductive FunDecl.Renamed : Marks → FunDecl → FunDecl → Prop where
  | mk {marks : Marks} {params params' : List Token} {body body' : List Stmt} (name : Token)
    (marked : Bool) (hparams : List.Forall₂ (ρ.Renames marked) params params')
    (h : RenamedAll (marked :: marks) body body') :
    FunDecl.Renamed marks (.mk name params body) (.mk name params' body')

inductive RenamedMethods : Marks → List FunDecl → List FunDecl → Prop where
  | nil (marks : Marks) : RenamedMethods marks [] []
  | cons {marks : Marks} {d d' : FunDecl} {ds ds' : List FunDecl} (h : FunDecl.Renamed marks d d')
    (hrest : RenamedMethods marks ds ds') : RenamedMethods marks (d :: ds) (d' :: ds')

end

theorem FunDecl.Renamed.name {ρ : Exchange} {marks : Marks} {d d' : FunDecl}
    (h : d.Renamed ρ marks d') : d'.name = d.name := by
  cases h with
  | mk name marked hparams h => rfl

end Lox
