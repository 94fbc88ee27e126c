import Lox.Evaluation
import Lox.Proofs.Heap.References
import Lox.Proofs.Tree.Nodes

/-!
# Tasks

A `Task` is what the evaluator is at work on. To do one it does others: those of the parts of its
code (`Task.Part`), those inside the blocks that it enters, and those of the functions it calls.

A statement that is left by a `return` has executed one of the `return` statements among its parts.
The bodies of functions and methods declared in the statement are no parts of it: they are executed
by calls, and a call stops every `return` of the body that it runs.
-/

namespace Lox

/-! ### Parts of statements -/

mutual

/-- The statements that are executed as parts of a statement, the statement itself among them. -/
def Stmt.parts : Stmt → List Stmt
  | .block body => .block body :: partsOfAll body
  | .ifElse cond thenBranch none => .ifElse cond thenBranch none :: thenBranch.parts
  | .ifElse cond thenBranch (some elseBranch) =>
    .ifElse cond thenBranch (some elseBranch) :: (thenBranch.parts ++ elseBranch.parts)
  | .while_ cond body => .while_ cond body :: body.parts
  | s => [s]
termination_by structural s => s

def partsOfAll : List Stmt → List Stmt
  | [] => []
  | s :: rest => s.parts ++ partsOfAll rest
termination_by structural body => body

end

/-- The keyword of one of the `return` statements among some statements. -/
def IsReturnOf (statements : List Stmt) (keyword : Token) : Prop :=
  ∃ value, Stmt.return_ keyword value ∈ statements

theorem IsReturnOf.mono {xs ys : List Stmt} (h : xs ⊆ ys) {keyword : Token}
    (hk : IsReturnOf xs keyword) : IsReturnOf ys keyword :=
  hk.imp fun _ hmem => h hmem

theorem not_isReturnOf_nil (keyword : Token) : ¬ IsReturnOf [] keyword := by
  rintro ⟨value, hmem⟩
  cases hmem

/-! ### Tasks -/

/-- Where a function comes from that is created or called: the declaration that is being executed, a
function that exists, or the method that a class has under some name, bound to an instance. -/
inductive Origin where
  | declaration
  | object (g : FunctionId)
  | method (c : ClassId) (name : String)

/-- What the evaluator is at work on. -/
inductive Task where
  | expr (e : Expr)
  | args (es : List Expr)
  | call (paren : Token) (callee : Value) (args : List Value)
  | body (f : Function) (origin : Origin) (args : List Value)
  | stmt (s : Stmt)
  | loop (cond : Expr) (body : Stmt)
  | stmts (body : List Stmt)

namespace Task

/-- The handles that a task is about. -/
def refs : Task → List Ref
  | .call _ callee vs => callee.refs ++ vs.flatMap Value.refs
  | .body f _ vs => .scope f.closure :: vs.flatMap Value.refs
  | _ => []

/-- The nodes of the code that a task is about. -/
def nodes : Task → List Expr
  | .expr e => e.nodes
  | .args es => nodesOfArgs es
  | .call _ _ _ => []
  | .body f _ _ => f.decl.nodes
  | .stmt s => s.nodes
  | .loop cond s => cond.nodes ++ s.nodes
  | .stmts rest => nodesOfAll rest

/-- The statements that are executed as parts of a task. Those that a call executes are none. -/
def parts : Task → List Stmt
  | .stmt s => s.parts
  | .loop _ s => s.parts
  | .stmts rest => partsOfAll rest
  | _ => []

/-- The name that a task binds or changes. -/
def bound? : Task → Option Token
  | .expr (.assign _ name _) => some name
  | .stmt s => s.declared?
  | _ => none

/-- The variable that a task looks for. A class declaration looks for its own name when the class
exists. -/
def sought? : Task → Option Token
  | .expr e => e.variable?
  | .stmt (.class_ name _ _) => some name
  | _ => none

/-- The property that a task is about. -/
def property? : Task → Option Token
  | .expr (.get _ _ name) => some name
  | .expr (.set _ _ name _) => some name
  | .expr (.super _ _ name) => some name
  | _ => none

/-- The tasks that a task consists of where it is done. The statements of a block and of the body of
a function are executed in scopes of their own, and of some statements those after the first one are
executed once that one has been: these are no parts. -/
inductive Part : Task → Task → Prop where
  | inner (id : NodeId) (e : Expr) : Part (.expr (.grouping id e)) (.expr e)
  | operand (id : NodeId) (op : Token) (e : Expr) : Part (.expr (.unary id op e)) (.expr e)
  | left (id : NodeId) (a : Expr) (op : Token) (b : Expr) :
    Part (.expr (.binary id a op b)) (.expr a)
  | right (id : NodeId) (a : Expr) (op : Token) (b : Expr) :
    Part (.expr (.binary id a op b)) (.expr b)
  | first (id : NodeId) (a : Expr) (op : Token) (b : Expr) :
    Part (.expr (.logical id a op b)) (.expr a)
  | second (id : NodeId) (a : Expr) (op : Token) (b : Expr) :
    Part (.expr (.logical id a op b)) (.expr b)
  | assigned (id : NodeId) (name : Token) (e : Expr) : Part (.expr (.assign id name e)) (.expr e)
  | callee (id : NodeId) (e : Expr) (paren : Token) (es : List Expr) :
    Part (.expr (.call id e paren es)) (.expr e)
  | arguments (id : NodeId) (e : Expr) (paren : Token) (es : List Expr) :
    Part (.expr (.call id e paren es)) (.args es)
  | call (id : NodeId) (e : Expr) (paren : Token) (es : List Expr) (f : Value) (vs : List Value) :
    Part (.expr (.call id e paren es)) (.call paren f vs)
  | object (id : NodeId) (e : Expr) (name : Token) : Part (.expr (.get id e name)) (.expr e)
  | owner (id : NodeId) (e : Expr) (name : Token) (value : Expr) :
    Part (.expr (.set id e name value)) (.expr e)
  | field (id : NodeId) (e : Expr) (name : Token) (value : Expr) :
    Part (.expr (.set id e name value)) (.expr value)
  | argument (e : Expr) (es : List Expr) : Part (.args (e :: es)) (.expr e)
  | others (e : Expr) (es : List Expr) : Part (.args (e :: es)) (.args es)
  | expression (e : Expr) : Part (.stmt (.expression e)) (.expr e)
  | printed (e : Expr) : Part (.stmt (.print e)) (.expr e)
  | initial (name : Token) (e : Expr) : Part (.stmt (.var name (some e))) (.expr e)
  | condition (e : Expr) (s : Stmt) (s' : Option Stmt) : Part (.stmt (.ifElse e s s')) (.expr e)
  | thenBranch (e : Expr) (s : Stmt) (s' : Option Stmt) : Part (.stmt (.ifElse e s s')) (.stmt s)
  | elseBranch (e : Expr) (s s' : Stmt) : Part (.stmt (.ifElse e s (some s'))) (.stmt s')
  | loop (e : Expr) (s : Stmt) : Part (.stmt (.while_ e s)) (.loop e s)
  | returned (keyword : Token) (e : Expr) : Part (.stmt (.return_ keyword (some e))) (.expr e)
  | superclass (name : Token) (e : Expr) (methods : List FunDecl) :
    Part (.stmt (.class_ name (some e) methods)) (.expr e)
  | again (e : Expr) (s : Stmt) : Part (.loop e s) (.expr e)
  | repeated (e : Expr) (s : Stmt) : Part (.loop e s) (.stmt s)
  | statement (s : Stmt) (rest : List Stmt) : Part (.stmts (s :: rest)) (.stmt s)

variable {t t' : Task}

theorem Part.parts_subset (h : t.Part t') : t'.parts ⊆ t.parts := by
  cases h with
  | thenBranch e s s' => cases s' <;> simp [parts, Stmt.parts]
  | _ => simp [parts, Stmt.parts, partsOfAll]

theorem Part.nodes_subset (h : t.Part t') : t'.nodes ⊆ t.nodes := by
  cases h with
  | condition e s s' => cases s' <;> simp [nodes, Stmt.nodes]
  | thenBranch e s s' => cases s' <;> simp [nodes, Stmt.nodes]
  | elseBranch e s s' => simp [nodes, Stmt.nodes]
  | _ => simp [nodes, Expr.nodes, nodesOfArgs, Stmt.nodes, Expr.nodes?, nodesOfAll]

end Task

end Lox
