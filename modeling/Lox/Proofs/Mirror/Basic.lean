import Mathlib.Data.List.Forall2
import Lox.Machine
import Lox.Proofs.Tree.Shape

/-!
# Mirrored programs

Two programs of the same shape may differ in the lines of their tokens and in the identities of
their nodes, and two runs of them in where their output goes. A `Mirror` says which tokens, nodes
and outputs correspond; corresponding tokens have the same kind and the same text, and
corresponding outputs still correspond when the same is written to both. `Expr.Mirrored`,
`Stmt.Mirrored` and `FunDecl.Mirrored` say that two trees are the same but for that.
-/

namespace Lox

/-- Which tokens, nodes and outputs of two programs correspond. -/
structure Mirror where
  token : Token → Token → Prop
  node : NodeId → NodeId → Prop
  /-- After so many nodes on either side, those that are made next correspond in order. -/
  made : Nat → Nat → Prop
  output : Output → Output → Prop
  kind : ∀ {t t' : Token}, token t t' → t'.kind = t.kind
  lexeme : ∀ {t t' : Token}, token t t' → t'.lexeme = t.lexeme
  next : ∀ {i i' : Nat}, made i i' → node (.ofNat i) (.ofNat i') ∧ made (i + 1) (i' + 1)
  write : ∀ {o o' : Output}, output o o' → ∀ s : String, output (o.write s) (o'.write s)

section

variable (μ : Mirror)

mutual

inductive Expr.Mirrored : Expr → Expr → Prop where
  | literal {id id' : NodeId} (hid : μ.node id id') (value : Literal) :
    Expr.Mirrored (.literal id value) (.literal id' value)
  | grouping {id id' : NodeId} {inner inner' : Expr} (hid : μ.node id id')
    (h : Expr.Mirrored inner inner') :
    Expr.Mirrored (.grouping id inner) (.grouping id' inner')
  | unary {id id' : NodeId} {op op' : Token} {right right' : Expr} (hid : μ.node id id')
    (hop : μ.token op op') (hright : Expr.Mirrored right right') :
    Expr.Mirrored (.unary id op right) (.unary id' op' right')
  | binary {id id' : NodeId} {op op' : Token} {left left' right right' : Expr}
    (hid : μ.node id id') (hleft : Expr.Mirrored left left') (hop : μ.token op op')
    (hright : Expr.Mirrored right right') :
    Expr.Mirrored (.binary id left op right) (.binary id' left' op' right')
  | logical {id id' : NodeId} {op op' : Token} {left left' right right' : Expr}
    (hid : μ.node id id') (hleft : Expr.Mirrored left left') (hop : μ.token op op')
    (hright : Expr.Mirrored right right') :
    Expr.Mirrored (.logical id left op right) (.logical id' left' op' right')
  | var {id id' : NodeId} {name name' : Token} (hid : μ.node id id') (hname : μ.token name name') :
    Expr.Mirrored (.var id name) (.var id' name')
  | assign {id id' : NodeId} {name name' : Token} {value value' : Expr} (hid : μ.node id id')
    (hname : μ.token name name') (hvalue : Expr.Mirrored value value') :
    Expr.Mirrored (.assign id name value) (.assign id' name' value')
  | call {id id' : NodeId} {callee callee' : Expr} {paren paren' : Token} {args args' : List Expr}
    (hid : μ.node id id') (hcallee : Expr.Mirrored callee callee')
    (hparen : μ.token paren paren') (hargs : MirroredArgs args args') :
    Expr.Mirrored (.call id callee paren args) (.call id' callee' paren' args')
  | get {id id' : NodeId} {object object' : Expr} {name name' : Token} (hid : μ.node id id')
    (hobject : Expr.Mirrored object object') (hname : μ.token name name') :
    Expr.Mirrored (.get id object name) (.get id' object' name')
  | set {id id' : NodeId} {object object' : Expr} {name name' : Token} {value value' : Expr}
    (hid : μ.node id id') (hobject : Expr.Mirrored object object') (hname : μ.token name name')
    (hvalue : Expr.Mirrored value value') :
    Expr.Mirrored (.set id object name value) (.set id' object' name' value')
  | this {id id' : NodeId} {keyword keyword' : Token} (hid : μ.node id id')
    (hkeyword : μ.token keyword keyword') :
    Expr.Mirrored (.this id keyword) (.this id' keyword')
  | super {id id' : NodeId} {keyword keyword' method method' : Token} (hid : μ.node id id')
    (hkeyword : μ.token keyword keyword') (hmethod : μ.token method method') :
    Expr.Mirrored (.super id keyword method) (.super id' keyword' method')

inductive MirroredArgs : List Expr → List Expr → Prop where
  | nil : MirroredArgs [] []
  | cons {e e' : Expr} {es es' : List Expr} (he : Expr.Mirrored e e')
    (hes : MirroredArgs es es') : MirroredArgs (e :: es) (e' :: es')

end

mutual

inductive Stmt.Mirrored : Stmt → Stmt → Prop where
  | expression {e e' : Expr} (h : e.Mirrored μ e') : Stmt.Mirrored (.expression e) (.expression e')
  | print {e e' : Expr} (h : e.Mirrored μ e') : Stmt.Mirrored (.print e) (.print e')
  | var {name name' : Token} {init init' : Option Expr} (hname : μ.token name name')
    (hinit : Option.Rel (Expr.Mirrored μ) init init') :
    Stmt.Mirrored (.var name init) (.var name' init')
  | block {body body' : List Stmt} (h : MirroredAll body body') :
    Stmt.Mirrored (.block body) (.block body')
  | ifThen {cond cond' : Expr} {thenBranch thenBranch' : Stmt} (hcond : cond.Mirrored μ cond')
    (hthen : Stmt.Mirrored thenBranch thenBranch') :
    Stmt.Mirrored (.ifElse cond thenBranch none) (.ifElse cond' thenBranch' none)
  | ifElse {cond cond' : Expr} {thenBranch thenBranch' elseBranch elseBranch' : Stmt}
    (hcond : cond.Mirrored μ cond') (hthen : Stmt.Mirrored thenBranch thenBranch')
    (helse : Stmt.Mirrored elseBranch elseBranch') :
    Stmt.Mirrored (.ifElse cond thenBranch (some elseBranch))
      (.ifElse cond' thenBranch' (some elseBranch'))
  | while_ {cond cond' : Expr} {body body' : Stmt} (hcond : cond.Mirrored μ cond')
    (hbody : Stmt.Mirrored body body') : Stmt.Mirrored (.while_ cond body) (.while_ cond' body')
  | function {decl decl' : FunDecl} (h : FunDecl.Mirrored decl decl') :
    Stmt.Mirrored (.function decl) (.function decl')
  | return_ {keyword keyword' : Token} {value value' : Option Expr}
    (hkeyword : μ.token keyword keyword') (hvalue : Option.Rel (Expr.Mirrored μ) value value') :
    Stmt.Mirrored (.return_ keyword value) (.return_ keyword' value')
  | class_ {name name' : Token} {superclass superclass' : Option Expr}
    {methods methods' : List FunDecl} (hname : μ.token name name')
    (hsuper : Option.Rel (Expr.Mirrored μ) superclass superclass')
    (hmethods : MirroredMethods methods methods') :
    Stmt.Mirrored (.class_ name superclass methods) (.class_ name' superclass' methods')

inductive MirroredAll : List Stmt → List Stmt → Prop where
  | nil : MirroredAll [] []
  | cons {s s' : Stmt} {rest rest' : List Stmt} (hs : Stmt.Mirrored s s')
    (hrest : MirroredAll rest rest') : MirroredAll (s :: rest) (s' :: rest')

inductive FunDecl.Mirrored : FunDecl → FunDecl → Prop where
  | mk {name name' : Token} {params params' : List Token} {body body' : List Stmt}
    (hname : μ.token name name') (hparams : List.Forall₂ μ.token params params')
    (hbody : MirroredAll body body') :
    FunDecl.Mirrored (.mk name params body) (.mk name' params' body')

inductive MirroredMethods : List FunDecl → List FunDecl → Prop where
  | nil : MirroredMethods [] []
  | cons {d d' : FunDecl} {ds ds' : List FunDecl} (hd : FunDecl.Mirrored d d')
    (hds : MirroredMethods ds ds') : MirroredMethods (d :: ds) (d' :: ds')

end

end

variable {μ ν : Mirror}

theorem FunDecl.Mirrored.name {d d' : FunDecl} (h : d.Mirrored μ d') :
    μ.token d.name d'.name := by
  cases h with
  | mk hname hparams hbody => exact hname

theorem FunDecl.Mirrored.isInitializer {d d' : FunDecl} (h : d.Mirrored μ d') :
    d'.isInitializer = d.isInitializer := by
  rw [FunDecl.isInitializer, FunDecl.isInitializer, μ.lexeme h.name]

theorem FunDecl.Mirrored.arity {d d' : FunDecl} (h : d.Mirrored μ d') : d'.arity = d.arity := by
  cases h with
  | mk hname hparams hbody => exact hparams.length_eq.symm

theorem MirroredAll.append {xs xs' ys ys' : List Stmt} (hxs : MirroredAll μ xs xs')
    (hys : MirroredAll μ ys ys') : MirroredAll μ (xs ++ ys) (xs' ++ ys') := by
  induction xs generalizing xs' with
  | nil =>
    cases hxs
    exact hys
  | cons s rest ih =>
    cases hxs with
    | cons hs hrest => exact .cons hs (ih hrest)

/-! ### Passing to another mirror -/

/-- The mirror `ν` relates all tokens that `μ` relates, and of some nodes all that `μ` relates. It
then mirrors the trees with these nodes that `μ` mirrors. -/
structure Mirror.Passes (μ ν : Mirror) (ids : List NodeId) : Prop where
  token : ∀ t t' : Token, μ.token t t' → ν.token t t'
  node : ∀ id ∈ ids, ∀ id', μ.node id id' → ν.node id id'

theorem Mirror.Passes.left {xs ys : List NodeId} (h : μ.Passes ν (xs ++ ys)) : μ.Passes ν xs :=
  ⟨h.token, fun id hid => h.node id (List.mem_append_left ys hid)⟩

theorem Mirror.Passes.right {xs ys : List NodeId} (h : μ.Passes ν (xs ++ ys)) : μ.Passes ν ys :=
  ⟨h.token, fun id hid => h.node id (List.mem_append_right xs hid)⟩

theorem Mirror.Passes.head {id id' : NodeId} {ids : List NodeId} (h : μ.Passes ν (id :: ids))
    (hid : μ.node id id') : ν.node id id' :=
  h.node id List.mem_cons_self id' hid

mutual

theorem Expr.Mirrored.pass : ∀ (e : Expr) {e' : Expr}, μ.Passes ν e.ids → e.Mirrored μ e' →
    e.Mirrored ν e'
  | .literal _ _, _, hn, h => by
    cases h with
    | literal hid => exact .literal (hn.head hid) _
  | .grouping _ inner, _, hn, h => by
    cases h with
    | grouping hid hinner =>
      exact .grouping (hn.right.head hid) (Expr.Mirrored.pass inner hn.left hinner)
  | .unary _ _ right, _, hn, h => by
    cases h with
    | unary hid hop hright =>
      exact .unary (hn.right.head hid) (hn.token _ _ hop) (Expr.Mirrored.pass right hn.left hright)
  | .binary _ left _ right, _, hn, h => by
    cases h with
    | binary hid hleft hop hright =>
      exact .binary (hn.right.head hid) (Expr.Mirrored.pass left hn.left.left hleft)
        (hn.token _ _ hop) (Expr.Mirrored.pass right hn.left.right hright)
  | .logical _ left _ right, _, hn, h => by
    cases h with
    | logical hid hleft hop hright =>
      exact .logical (hn.right.head hid) (Expr.Mirrored.pass left hn.left.left hleft)
        (hn.token _ _ hop) (Expr.Mirrored.pass right hn.left.right hright)
  | .var _ _, _, hn, h => by
    cases h with
    | var hid hname => exact .var (hn.head hid) (hn.token _ _ hname)
  | .assign _ _ value, _, hn, h => by
    cases h with
    | assign hid hname hvalue =>
      exact .assign (hn.right.head hid) (hn.token _ _ hname)
        (Expr.Mirrored.pass value hn.left hvalue)
  | .call _ callee _ args, _, hn, h => by
    cases h with
    | call hid hcallee hparen hargs =>
      exact .call (hn.right.head hid) (Expr.Mirrored.pass callee hn.left.left hcallee)
        (hn.token _ _ hparen) (MirroredArgs.pass args hn.left.right hargs)
  | .get _ object _, _, hn, h => by
    cases h with
    | get hid hobject hname =>
      exact .get (hn.right.head hid) (Expr.Mirrored.pass object hn.left hobject)
        (hn.token _ _ hname)
  | .set _ object _ value, _, hn, h => by
    cases h with
    | set hid hobject hname hvalue =>
      exact .set (hn.right.head hid) (Expr.Mirrored.pass object hn.left.right hobject)
        (hn.token _ _ hname) (Expr.Mirrored.pass value hn.left.left hvalue)
  | .this _ _, _, hn, h => by
    cases h with
    | this hid hkeyword => exact .this (hn.head hid) (hn.token _ _ hkeyword)
  | .super _ _ _, _, hn, h => by
    cases h with
    | super hid hkeyword hmethod =>
      exact .super (hn.head hid) (hn.token _ _ hkeyword) (hn.token _ _ hmethod)
termination_by structural e => e

theorem MirroredArgs.pass : ∀ (es : List Expr) {es' : List Expr}, μ.Passes ν (idsOfArgs es) →
    MirroredArgs μ es es' → MirroredArgs ν es es'
  | [], _, _, h => by
    cases h
    exact .nil
  | e :: es, _, hn, h => by
    cases h with
    | cons he hes =>
      exact .cons (Expr.Mirrored.pass e hn.left he) (MirroredArgs.pass es hn.right hes)
termination_by structural es => es

end

theorem Expr.Mirrored.pass? {e e' : Option Expr} (hn : μ.Passes ν (Expr.ids? e))
    (h : Option.Rel (Expr.Mirrored μ) e e') : Option.Rel (Expr.Mirrored ν) e e' := by
  cases h with
  | none => exact .none
  | some he => exact .some (Expr.Mirrored.pass _ hn he)

mutual

theorem Stmt.Mirrored.pass : ∀ (s : Stmt) {s' : Stmt}, μ.Passes ν s.ids → s.Mirrored μ s' →
    s.Mirrored ν s'
  | .expression e, _, hn, h => by
    cases h with
    | expression he => exact .expression (Expr.Mirrored.pass e hn he)
  | .print e, _, hn, h => by
    cases h with
    | print he => exact .print (Expr.Mirrored.pass e hn he)
  | .var _ _, _, hn, h => by
    cases h with
    | var hname hinit => exact .var (hn.token _ _ hname) (Expr.Mirrored.pass? hn hinit)
  | .block body, _, hn, h => by
    cases h with
    | block hbody => exact .block (MirroredAll.pass body hn hbody)
  | .ifElse cond thenBranch none, _, hn, h => by
    cases h with
    | ifThen hcond hthen =>
      exact .ifThen (Expr.Mirrored.pass cond hn.left hcond)
        (Stmt.Mirrored.pass thenBranch hn.right hthen)
  | .ifElse cond thenBranch (some elseBranch), _, hn, h => by
    cases h with
    | ifElse hcond hthen helse =>
      exact .ifElse (Expr.Mirrored.pass cond hn.left.left hcond)
        (Stmt.Mirrored.pass thenBranch hn.left.right hthen)
        (Stmt.Mirrored.pass elseBranch hn.right helse)
  | .while_ cond body, _, hn, h => by
    cases h with
    | while_ hcond hbody =>
      exact .while_ (Expr.Mirrored.pass cond hn.left hcond) (Stmt.Mirrored.pass body hn.right hbody)
  | .function decl, _, hn, h => by
    cases h with
    | function hdecl => exact .function (FunDecl.Mirrored.pass decl hn hdecl)
  | .return_ _ _, _, hn, h => by
    cases h with
    | return_ hkeyword hvalue =>
      exact .return_ (hn.token _ _ hkeyword) (Expr.Mirrored.pass? hn hvalue)
  | .class_ _ _ methods, _, hn, h => by
    cases h with
    | class_ hname hsuper hmethods =>
      exact .class_ (hn.token _ _ hname) (Expr.Mirrored.pass? hn.left hsuper)
        (MirroredMethods.pass methods hn.right hmethods)
termination_by structural s => s

theorem MirroredAll.pass : ∀ (body : List Stmt) {body' : List Stmt},
    μ.Passes ν (idsOfAll body) → MirroredAll μ body body' → MirroredAll ν body body'
  | [], _, _, h => by
    cases h
    exact .nil
  | s :: rest, _, hn, h => by
    cases h with
    | cons hs hrest =>
      exact .cons (Stmt.Mirrored.pass s hn.left hs) (MirroredAll.pass rest hn.right hrest)
termination_by structural body => body

theorem FunDecl.Mirrored.pass : ∀ (d : FunDecl) {d' : FunDecl}, μ.Passes ν d.ids →
    d.Mirrored μ d' → d.Mirrored ν d'
  | .mk _ _ body, _, hn, h => by
    cases h with
    | mk hname hparams hbody =>
      exact .mk (hn.token _ _ hname) (hparams.imp hn.token) (MirroredAll.pass body hn hbody)
termination_by structural d => d

theorem MirroredMethods.pass : ∀ (ds : List FunDecl) {ds' : List FunDecl},
    μ.Passes ν (idsOfMethods ds) → MirroredMethods μ ds ds' → MirroredMethods ν ds ds'
  | [], _, _, h => by
    cases h
    exact .nil
  | d :: ds, _, hn, h => by
    cases h with
    | cons hd hds =>
      exact .cons (FunDecl.Mirrored.pass d hn.left hd) (MirroredMethods.pass ds hn.right hds)
termination_by structural ds => ds

end

end Lox
